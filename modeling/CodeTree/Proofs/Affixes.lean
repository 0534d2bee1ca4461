/-
Operators before and after, calls and properties in print. An operator before an expression is
not wrapped where the expression is called or where an operator comes after it, and an operator
that writes back is not wrapped where a property is taken. So what comes after is read as
belonging to the innermost part of the expression, and the operators are read as being applied
last. Two expressions are printed alike exactly if they are read as the same expression. Where no
operator stands bare in this way, what is read is what was printed, up to the kind of the
operators.
-/

import CodeTree.Proofs.Wrapping

namespace CodeTree

namespace Expression

/-! ### The expressions -/

mutual

/-- Whether an expression is made of names, operators before and after, calls and properties. -/
def isAffixed : Expression → Bool
  | identifier _ => true
  | unary _ argument | update _ _ argument => isAffixed argument
  | member object _ => isAffixed object
  | call callee arguments => isAffixed callee && areAffixed arguments
  | _ => false
termination_by structural expression => expression

def areAffixed : List Expression → Bool
  | [] => true
  | first :: rest => isAffixed first && areAffixed rest
termination_by structural expressions => expressions

end

/-- An expression without the operators before it. -/
def core : Expression → Expression
  | unary _ argument => core argument
  | expression => expression

/-- The operators before an expression, put ahead of another one. -/
def ahead : Expression → Expression → Expression
  | unary operator argument, inner => unary operator (ahead argument inner)
  | _, inner => inner

end Expression

/-- What can come after an expression. -/
inductive Suffix where
  | operator (characters : String)
  | property (name : String)
  | arguments (passed : List Expression)

namespace Suffix

def attach : Suffix → Expression → Expression
  | operator characters, inner => .update characters false inner
  | property name, inner => .member inner name
  | arguments passed, inner => .call inner passed

/-- The tokens of a suffix. -/
def tokens : Suffix → List Token
  | operator characters => [.operator characters]
  | property name => [.dot, .name name]
  | arguments passed =>
    Expression.parenthesized (Expression.listed (Expression.tokensOf .passed passed))

/-- Puts a suffix behind an expression: the operators before it are applied afterwards. -/
def behind (suffix : Suffix) (expression : Expression) : Expression :=
  expression.ahead (suffix.attach expression.core)

end Suffix

namespace Expression

mutual

/-- What an expression is read as once it is printed. Whether an operator before its argument
writes back to it is not seen. -/
def read : Expression → Expression
  | unary operator argument | update operator true argument => unary operator (read argument)
  | update operator false argument => (Suffix.operator operator).behind (read argument)
  | member object name =>
    if Place.object.wraps object then member (read object) name
    else (Suffix.property name).behind (read object)
  | call callee arguments => (Suffix.arguments (readAll arguments)).behind (read callee)
  | expression => expression
termination_by structural expression => expression

def readAll : List Expression → List Expression
  | [] => []
  | first :: rest => read first :: readAll rest
termination_by structural expressions => expressions

end

end Expression

namespace Affixes

open Expression

variable {expression inner other : Expression} {arguments : List Expression}

/-! ### The grammar -/

/-- What is to be read next. -/
inductive Phase where
  | whole
  /-- What comes after an expression. -/
  | suffixes (expression : Expression)
  /-- More arguments of a call. -/
  | arguments (callee : Expression) (done : List Expression)

/-- In a phase, tokens are read as an expression, up to a rest. -/
inductive Reads : Phase → List Token → Expression → List Token → Prop where
  | before {tokens operator argument rest} : Reads .whole tokens argument rest →
    Reads .whole (.operator operator :: tokens) (.unary operator argument) rest
  | name {tokens name expression rest} :
    Reads (.suffixes (.identifier name)) tokens expression rest →
      Reads .whole (.name name :: tokens) expression rest
  | parentheses {tokens inner mid expression rest} : Reads .whole tokens inner (.closing :: mid) →
    Reads (.suffixes inner) mid expression rest → Reads .whole (.opening :: tokens) expression rest
  | dot {tokens object name expression rest} :
    Reads (.suffixes (.member object name)) tokens expression rest →
      Reads (.suffixes object) (.dot :: .name name :: tokens) expression rest
  | after {tokens operator argument expression rest} :
    Reads (.suffixes (.update operator false argument)) tokens expression rest →
      Reads (.suffixes argument) (.operator operator :: tokens) expression rest
  | nothing {tokens callee expression rest} :
    Reads (.suffixes (.call callee [])) tokens expression rest →
    Reads (.suffixes callee) (.opening :: .closing :: tokens) expression rest
  | first {tokens callee argument mid expression rest} : Reads .whole tokens argument mid →
    Reads (.arguments callee [argument]) mid expression rest →
      Reads (.suffixes callee) (.opening :: tokens) expression rest
  | comma {tokens callee done next mid expression rest} : Reads .whole tokens next mid →
    Reads (.arguments callee (done ++ [next])) mid expression rest →
      Reads (.arguments callee done) (.comma :: tokens) expression rest
  | closing {tokens callee done expression rest} :
    Reads (.suffixes (.call callee done)) tokens expression rest →
      Reads (.arguments callee done) (.closing :: tokens) expression rest
  | ended {tokens expression} : tokens.head? ≠ some .dot → tokens.head? ≠ some .opening →
    (∀ operator, tokens.head? ≠ some (.operator operator)) →
      Reads (.suffixes expression) tokens expression tokens

/-- Tokens are read in one way at most. -/
theorem Reads.unique {phase : Phase} {tokens rest otherRest : List Token}
    (first : Reads phase tokens expression rest) (second : Reads phase tokens other otherRest) :
    expression = other ∧ rest = otherRest := by
  induction first generalizing other otherRest with
  | before _ argument =>
    cases second with
    | before again =>
      obtain ⟨rfl, rfl⟩ := argument again
      exact ⟨rfl, rfl⟩
  | name _ tail =>
    cases second with
    | name more => exact tail more
  | parentheses _ _ head tail =>
    cases second with
    | parentheses again more =>
      obtain ⟨rfl, same⟩ := head again
      cases same
      exact tail more
  | dot _ tail =>
    cases second with
    | dot more => exact tail more
    | ended noDot => exact absurd rfl noDot
  | after _ tail =>
    cases second with
    | after more => exact tail more
    | ended _ _ noOperator => exact absurd rfl (noOperator _)
  | nothing _ tail =>
    cases second with
    | nothing more => exact tail more
    | first again => cases again
    | ended _ noOpening => exact absurd rfl noOpening
  | first argument _ head tail =>
    cases second with
    | nothing => cases argument
    | first again more =>
      obtain ⟨rfl, rfl⟩ := head again
      exact tail more
    | ended _ noOpening => exact absurd rfl noOpening
  | comma _ _ head tail =>
    cases second with
    | comma again more =>
      obtain ⟨rfl, rfl⟩ := head again
      exact tail more
  | closing _ tail =>
    cases second with
    | closing more => exact tail more
  | ended noDot noOpening noOperator =>
    cases second with
    | dot => exact absurd rfl noDot
    | after => exact absurd rfl (noOperator _)
    | nothing | first => exact absurd rfl noOpening
    | ended => exact ⟨rfl, rfl⟩

/-! ### The innermost part -/

/-- No operator stands before an expression. -/
def Bare (expression : Expression) : Prop :=
  ∀ operator argument, expression ≠ .unary operator argument

theorem bare_core (expression : Expression) : Bare expression.core := by
  fun_induction core expression with
  | case1 operator argument ih => exact ih
  | case2 expression other => exact other

theorem bare_attach (suffix : Suffix) (inner : Expression) : Bare (suffix.attach inner) := by
  intro operator argument
  cases suffix <;> simp [Suffix.attach]

theorem Bare.core {expression : Expression} (bare : Bare expression) :
    expression.core = expression := core.eq_2 expression bare

theorem Bare.ahead {expression : Expression} (bare : Bare expression) (inner : Expression) :
    expression.ahead inner = inner := ahead.eq_2 expression inner bare

theorem ahead_core (expression : Expression) : expression.ahead expression.core = expression := by
  fun_induction Expression.core expression with
  | case1 operator argument ih => rw [Expression.ahead, ih]
  | case2 expression other => exact Bare.ahead other expression

theorem core_ahead (bare : Bare inner) (expression : Expression) :
    (expression.ahead inner).core = inner := by
  fun_induction Expression.ahead expression inner with
  | case1 inner operator argument ih => exact ih bare
  | case2 => exact bare.core

theorem ahead_ahead (bare : Bare inner) (expression next : Expression) :
    (expression.ahead inner).ahead next = expression.ahead next := by
  fun_induction Expression.ahead expression inner with
  | case1 inner operator argument ih =>
    rw [Expression.ahead, Expression.ahead, ih bare]
  | case2 expression inner other => rw [bare.ahead, Bare.ahead other]

/-! ### Expressions are read from their tokens -/

/-- In these expressions, only an operator before its argument is ever wrapped, and only where a
property is taken. -/
theorem wraps_affixed (affixed : expression.isAffixed = true) (place : Place) :
    place.wraps expression = true ↔
      place = .object ∧ ∃ operator argument, expression = .unary operator argument := by
  cases expression with
  | unary operator argument => cases place <;> simp [Place.wraps]
  | identifier | update | member | call => simp [Place.wraps]
  | _ => cases affixed

theorem placed_elsewhere (place : Place) (elsewhere : place ≠ .object)
    (affixed : expression.isAffixed = true) (tokens : List Token) :
    placed place expression tokens = tokens :=
  if_neg fun wrapped => elsewhere ((wraps_affixed affixed place).mp wrapped).1

theorem placed_bare (place : Place) (bare : Bare expression) (affixed : expression.isAffixed = true)
    (tokens : List Token) : placed place expression tokens = tokens := by
  refine if_neg fun wrapped => ?_
  obtain ⟨_, operator, argument, same⟩ := (wraps_affixed affixed place).mp wrapped
  exact bare operator argument same

/-- What cannot be taken for a suffix. -/
structure Ends (rest : List Token) : Prop where
  noDot : rest.head? ≠ some .dot
  noOpening : rest.head? ≠ some .opening
  noOperator : ∀ operator, rest.head? ≠ some (.operator operator)

/-- Tokens are read as an expression: what comes after them goes to its innermost part. -/
def AsWhole (tokens : List Token) (expression : Expression) : Prop :=
  ∀ rest result final, Reads (.suffixes expression.core) rest result final →
    Reads .whole (tokens ++ rest) (expression.ahead result) final

theorem AsWhole.alone {tokens : List Token} (whole : AsWhole tokens expression) {rest : List Token}
    (ends : Ends rest) : Reads .whole (tokens ++ rest) expression rest := by
  have reads := whole rest _ _ (.ended ends.noDot ends.noOpening ends.noOperator)
  rwa [ahead_core] at reads

theorem AsWhole.parenthesized {tokens : List Token} {expression : Expression}
    (whole : AsWhole tokens expression) {rest final : List Token} {result : Expression}
    (suffixes : Reads (.suffixes expression) rest result final) :
    Reads .whole (parenthesized tokens ++ rest) result final := by
  rw [parenthesized_append]
  exact .parentheses (whole.alone ⟨by simp, by simp, by simp⟩) suffixes

/-- A suffix is read behind an expression. -/
theorem AsWhole.behind {tokens more : List Token} {expression : Expression}
    (whole : AsWhole tokens expression) (suffix : Suffix) (reads : ∀ {inner rest result final},
      Reads (.suffixes (suffix.attach inner)) rest result final →
      Reads (.suffixes inner) (more ++ rest) result final) :
    AsWhole (tokens ++ more) (suffix.behind expression) := by
  intro rest result final suffixes
  have bare := bare_attach suffix expression.core
  rw [Suffix.behind, core_ahead bare] at suffixes
  rw [Suffix.behind, ahead_ahead bare, List.append_assoc]
  exact whole _ _ _ (reads suffixes)

/-- An expression is one of those that are read from their tokens. -/
structure Readable (expression : Expression) : Prop where
  affixed : expression.isAffixed = true
  reads : AsWhole expression.tokens expression.read

theorem Readable.placed {expression : Expression} (readable : Readable expression) (place : Place)
    (elsewhere : place ≠ .object) :
    AsWhole (placed place expression expression.tokens) expression.read := by
  rw [placed_elsewhere place elsewhere readable.affixed]
  exact readable.reads

section Arguments

variable {callee result : Expression} {rest final : List Token}

/-- Further arguments are read one after another. -/
theorem reads_arguments (some : arguments ≠ [])
    (readable : ∀ argument ∈ arguments, Readable argument) (done : List Expression)
    (suffixes : Reads (.suffixes (.call callee (done ++ readAll arguments))) rest result final) :
    Reads (.arguments callee done)
      (.comma :: (listed (tokensOf .passed arguments) ++ .closing :: rest)) result final := by
  induction arguments generalizing done with
  | nil => exact absurd rfl some
  | cons first others ih =>
    have whole := (readable first List.mem_cons_self).placed .passed nofun
    cases others with
    | nil => exact .comma (whole.alone ⟨by simp, by simp, by simp⟩) (.closing suffixes)
    | cons second others =>
      rw [listed_tokensOf]
      refine .comma (whole.alone ⟨by simp, by simp, by simp⟩) ?_
      refine ih (List.cons_ne_nil second others)
        (fun argument member => readable argument (List.mem_cons_of_mem _ member)) _ ?_
      rwa [List.append_assoc, List.singleton_append]

/-- The arguments of a call are read behind what is called. -/
theorem reads_call (readable : ∀ argument ∈ arguments, Readable argument)
    (suffixes : Reads (.suffixes (.call callee (readAll arguments))) rest result final) :
    Reads (.suffixes callee) (parenthesized (listed (tokensOf .passed arguments)) ++ rest) result
      final := by
  rw [parenthesized_append]
  cases arguments with
  | nil => exact .nothing suffixes
  | cons first others =>
    have whole := (readable first List.mem_cons_self).placed .passed nofun
    cases others with
    | nil => exact .first (whole.alone ⟨by simp, by simp, by simp⟩) (.closing suffixes)
    | cons second others =>
      rw [listed_tokensOf]
      exact .first (whole.alone ⟨by simp, by simp, by simp⟩) (reads_arguments
        (List.cons_ne_nil second others)
        (fun argument member => readable argument (List.mem_cons_of_mem _ member)) [first.read]
        suffixes)

end Arguments

mutual

/-- Every expression is read from its own tokens. -/
theorem readable : ∀ {expression : Expression}, expression.isAffixed = true →
    Readable expression
  | .identifier name, affixed => ⟨affixed, fun _ _ _ suffixes => .name suffixes⟩
  | .unary operator argument, affixed => by
    have whole := (@readable argument affixed).placed .argument nofun
    exact ⟨affixed, fun rest result final suffixes => .before (whole _ _ _ suffixes)⟩
  | .update operator true argument, affixed => by
    have whole := (@readable argument affixed).placed .operand nofun
    exact ⟨affixed, fun rest result final suffixes => .before (whole _ _ _ suffixes)⟩
  | .update operator false argument, affixed => by
    have whole := (@readable argument affixed).placed .operand nofun
    exact ⟨affixed, whole.behind (.operator operator) .after⟩
  | .member object name, affixed => by
    have inner := @readable object affixed
    refine ⟨affixed, ?_⟩
    rw [Expression.tokens, Expression.read, Expression.placed]
    split
    · intro rest result final suffixes
      rw [List.append_assoc]
      exact inner.reads.parenthesized (.dot suffixes)
    · exact inner.reads.behind (.property name) .dot
  | .call callee arguments, affixed => by
    have both := affixed
    rw [isAffixed, Bool.and_eq_true] at both
    have whole := (readable both.1).placed .callee nofun
    exact ⟨affixed, whole.behind (.arguments (readAll arguments))
      (reads_call (areReadable both.2))⟩

theorem areReadable : ∀ {expressions : List Expression}, areAffixed expressions = true →
    ∀ expression ∈ expressions, Readable expression
  | [], _, _, inside => nomatch inside
  | first :: rest, affixed, expression, inside => by
    rw [areAffixed, Bool.and_eq_true] at affixed
    rcases List.mem_cons.mp inside with same | later
    · rw [same]
      exact readable affixed.1
    · exact areReadable affixed.2 expression later

end

/-! ### What is read is printed alike -/

/-- The tokens of the operators before an expression. -/
def leading : Expression → List Token
  | .unary operator argument => .operator operator :: leading argument
  | _ => []

theorem isAffixed_ahead (expression inner : Expression) :
    (expression.ahead inner).isAffixed = inner.isAffixed := by
  fun_induction Expression.ahead expression inner with
  | case1 inner operator argument ih => exact ih
  | case2 => rfl

theorem isAffixed_core (expression : Expression) :
    expression.core.isAffixed = expression.isAffixed := by
  rw [← isAffixed_ahead expression, ahead_core]

theorem tokens_ahead (affixed : inner.isAffixed = true) (expression : Expression) :
    (expression.ahead inner).tokens = leading expression ++ inner.tokens := by
  fun_induction Expression.ahead expression inner with
  | case1 operator argument inner ih =>
    have free := (isAffixed_ahead argument inner).trans affixed
    rw [Expression.tokens, placed_elsewhere .argument nofun free, ih affixed,
      leading, List.cons_append]
  | case2 expression inner other => rw [leading.eq_2 expression other, List.nil_append]

theorem tokens_behind (affixed : expression.isAffixed = true) {suffix : Suffix}
    (attached : (suffix.attach expression.core).isAffixed = true) :
    (suffix.behind expression).tokens = expression.tokens ++ suffix.tokens := by
  have inside : expression.core.isAffixed = true := by rw [isAffixed_core, affixed]
  have free (place : Place) (tokens : List Token) :
      placed place expression.core tokens = tokens :=
    placed_bare place (bare_core expression) inside tokens
  have suffixed : (suffix.attach expression.core).tokens =
      expression.core.tokens ++ suffix.tokens := by
    cases suffix <;> simp [Suffix.attach, Suffix.tokens, Expression.tokens, free]
  have whole := tokens_ahead inside expression
  rw [ahead_core] at whole
  rw [Suffix.behind, tokens_ahead attached, suffixed, ← List.append_assoc, ← whole]

mutual

/-- What is read is printed as what was printed. -/
theorem tokens_read : ∀ {expression : Expression}, expression.isAffixed = true →
    expression.read.isAffixed = true ∧ expression.read.tokens = expression.tokens
  | .identifier name, _ => ⟨rfl, rfl⟩
  | .unary operator argument, affixed => by
    rw [isAffixed] at affixed
    obtain ⟨inside, same⟩ := tokens_read affixed
    refine ⟨inside, ?_⟩
    rw [Expression.read, Expression.tokens, Expression.tokens,
      placed_elsewhere .argument nofun inside, placed_elsewhere .argument nofun affixed, same]
  | .update operator true argument, affixed => by
    rw [isAffixed] at affixed
    obtain ⟨inside, same⟩ := tokens_read affixed
    refine ⟨inside, ?_⟩
    rw [Expression.read, Expression.tokens, Expression.tokens,
      placed_elsewhere .argument nofun inside, placed_elsewhere .operand nofun affixed, same]
    rfl
  | .update operator false argument, affixed => by
    rw [isAffixed] at affixed
    obtain ⟨inside, same⟩ := tokens_read affixed
    have attached : ((Suffix.operator operator).attach argument.read.core).isAffixed = true :=
      (isAffixed_core _).trans inside
    refine ⟨(isAffixed_ahead _ _).trans attached, ?_⟩
    rw [Expression.read, tokens_behind inside attached, same, Expression.tokens,
      placed_elsewhere .operand nofun affixed]
    rfl
  | .member object name, affixed => by
    rw [isAffixed] at affixed
    obtain ⟨inside, same⟩ := tokens_read affixed
    rw [Expression.read, Expression.tokens, placed]
    split
    · rename_i wrapped
      obtain ⟨_, operator, argument, rfl⟩ := (wraps_affixed affixed .object).mp wrapped
      refine ⟨inside, ?_⟩
      rw [← same]
      rfl
    · have attached : ((Suffix.property name).attach object.read.core).isAffixed = true :=
        (isAffixed_core _).trans inside
      refine ⟨(isAffixed_ahead _ _).trans attached, ?_⟩
      rw [tokens_behind inside attached, same]
      rfl
  | .call callee arguments, affixed => by
    rw [isAffixed, Bool.and_eq_true] at affixed
    obtain ⟨inside, same⟩ := tokens_read affixed.1
    obtain ⟨insides, sames⟩ := tokensOf_readAll affixed.2
    have attached : ((Suffix.arguments (readAll arguments)).attach callee.read.core).isAffixed =
        true := by
      rw [Suffix.attach, isAffixed, isAffixed_core, inside, insides, Bool.and_self]
    refine ⟨(isAffixed_ahead _ _).trans attached, ?_⟩
    rw [Expression.read, tokens_behind inside attached, same, Expression.tokens,
      placed_elsewhere .callee nofun affixed.1, Suffix.tokens, sames]

theorem tokensOf_readAll : ∀ {expressions : List Expression}, areAffixed expressions = true →
    areAffixed (readAll expressions) = true ∧
      tokensOf .passed (readAll expressions) = tokensOf .passed expressions
  | [], _ => ⟨rfl, rfl⟩
  | first :: rest, affixed => by
    rw [areAffixed, Bool.and_eq_true] at affixed
    obtain ⟨inside, same⟩ := tokens_read affixed.1
    obtain ⟨insides, sames⟩ := tokensOf_readAll affixed.2
    rw [readAll, areAffixed, inside, insides, tokensOf, tokensOf,
      placed_elsewhere .passed nofun inside, placed_elsewhere .passed nofun affixed.1, same, sames]
    exact ⟨rfl, rfl⟩

end

/-- Expressions are printed alike exactly if they are read as the same expression. -/
theorem tokens_eq_iff (affixed : expression.isAffixed = true)
    (otherAffixed : other.isAffixed = true) :
    expression.tokens = other.tokens ↔ expression.read = other.read := by
  constructor
  · intro same
    have ends : Ends [] := ⟨by simp, by simp, by simp⟩
    have reads := (readable affixed).reads.alone ends
    have readsOther := (readable otherAffixed).reads.alone ends
    rw [same] at reads
    exact (reads.unique readsOther).1
  · intro same
    rw [← (tokens_read affixed).2, ← (tokens_read otherAffixed).2, same]

end Affixes

namespace Expression

/-! ### Expressions without bare operators -/

/-- Whether an operator stands before the argument. -/
def isPrefixed : Expression → Bool
  | unary _ _ | update _ true _ => true
  | _ => false

mutual

/-- Whether operators before an argument are wrapped, or absent, wherever something comes after. -/
def isGuarded : Expression → Bool
  | unary _ argument | update _ true argument => isGuarded argument
  | update _ false argument => !argument.isPrefixed && isGuarded argument
  | member object _ => (Place.object.wraps object || !object.isPrefixed) && isGuarded object
  | call callee arguments => !callee.isPrefixed && isGuarded callee && areGuarded arguments
  | _ => true
termination_by structural expression => expression

def areGuarded : List Expression → Bool
  | [] => true
  | first :: rest => isGuarded first && areGuarded rest
termination_by structural expressions => expressions

end

mutual

/-- Whether the operators before an argument that write back to it are those of a kind. -/
def isSorted (writes : String → Bool) : Expression → Bool
  | unary operator argument => !writes operator && isSorted writes argument
  | update operator before argument => (writes operator || !before) && isSorted writes argument
  | member object _ => isSorted writes object
  | call callee arguments => isSorted writes callee && areSorted writes arguments
  | _ => true
termination_by structural expression => expression

def areSorted (writes : String → Bool) : List Expression → Bool
  | [] => true
  | first :: rest => isSorted writes first && areSorted writes rest
termination_by structural expressions => expressions

end

mutual

/-- Tells the operators that write back from the others. -/
def restored (writes : String → Bool) : Expression → Expression
  | unary operator argument =>
    if writes operator then update operator true (restored writes argument)
    else unary operator (restored writes argument)
  | update operator before argument => update operator before (restored writes argument)
  | member object name => member (restored writes object) name
  | call callee arguments => call (restored writes callee) (restoredAll writes arguments)
  | expression => expression
termination_by structural expression => expression

def restoredAll (writes : String → Bool) : List Expression → List Expression
  | [] => []
  | first :: rest => restored writes first :: restoredAll writes rest
termination_by structural expressions => expressions

end

end Expression

namespace Affixes

open Expression

theorem Bare.behind {expression : Expression} (bare : Bare expression) (suffix : Suffix) :
    suffix.behind expression = suffix.attach expression := by
  rw [Suffix.behind, bare.core, bare.ahead]

/-- Behind an expression before which no operator stands, everything is read as it is printed. -/
theorem bare_read : ∀ {expression : Expression}, expression.isAffixed = true →
    expression.isGuarded = true → expression.isPrefixed = false → Bare expression.read
  | .identifier name, _, _, _ => by
    intro operator argument
    simp [Expression.read]
  | .update operator false argument, affixed, guarded, _ => by
    rw [isGuarded, Bool.and_eq_true, Bool.not_eq_true'] at guarded
    rw [Expression.read, (@bare_read argument affixed guarded.2 guarded.1).behind]
    exact bare_attach _ _
  | .member object name, affixed, guarded, _ => by
    rw [isGuarded, Bool.and_eq_true, Bool.or_eq_true, Bool.not_eq_true'] at guarded
    rw [Expression.read]
    split
    · intro operator argument
      simp
    · rename_i unwrapped
      rw [(@bare_read object affixed guarded.2 (guarded.1.resolve_left unwrapped)).behind]
      exact bare_attach _ _
  | .call callee arguments, affixed, guarded, _ => by
    rw [isAffixed, Bool.and_eq_true] at affixed
    rw [isGuarded, Bool.and_eq_true, Bool.and_eq_true, Bool.not_eq_true'] at guarded
    rw [Expression.read, (bare_read affixed.1 guarded.1.2 guarded.1.1).behind]
    exact bare_attach _ _

mutual

theorem restored_read {writes : String → Bool} : ∀ {expression : Expression},
    expression.isAffixed = true → expression.isGuarded = true → expression.isSorted writes = true →
      expression.read.restored writes = expression
  | .identifier name, _, _, _ => rfl
  | .unary operator argument, affixed, guarded, sorted => by
    rw [isSorted, Bool.and_eq_true, Bool.not_eq_true'] at sorted
    rw [Expression.read, restored, sorted.1, @restored_read _ argument affixed guarded sorted.2]
    rfl
  | .update operator true argument, affixed, guarded, sorted => by
    rw [isSorted, Bool.and_eq_true, Bool.or_eq_true] at sorted
    have writing : writes operator = true := sorted.1.resolve_right nofun
    rw [Expression.read, restored, writing, @restored_read _ argument affixed guarded sorted.2]
    rfl
  | .update operator false argument, affixed, guarded, sorted => by
    rw [isGuarded, Bool.and_eq_true, Bool.not_eq_true'] at guarded
    rw [isSorted, Bool.and_eq_true] at sorted
    rw [Expression.read, (@bare_read argument affixed guarded.2 guarded.1).behind, Suffix.attach,
      restored, @restored_read _ argument affixed guarded.2 sorted.2]
  | .member object name, affixed, guarded, sorted => by
    rw [isGuarded, Bool.and_eq_true, Bool.or_eq_true, Bool.not_eq_true'] at guarded
    have same := @restored_read _ object affixed guarded.2 sorted
    rw [Expression.read]
    split
    · rw [restored, same]
    · rename_i unwrapped
      rw [(@bare_read object affixed guarded.2 (guarded.1.resolve_left unwrapped)).behind,
        Suffix.attach, restored, same]
  | .call callee arguments, affixed, guarded, sorted => by
    rw [isAffixed, Bool.and_eq_true] at affixed
    rw [isGuarded, Bool.and_eq_true, Bool.and_eq_true, Bool.not_eq_true'] at guarded
    rw [isSorted, Bool.and_eq_true] at sorted
    rw [Expression.read, (bare_read affixed.1 guarded.1.2 guarded.1.1).behind, Suffix.attach,
      restored, restored_read affixed.1 guarded.1.2 sorted.1,
      restoredAll_readAll affixed.2 guarded.2 sorted.2]

theorem restoredAll_readAll {writes : String → Bool} : ∀ {expressions : List Expression},
    areAffixed expressions = true → areGuarded expressions = true →
      areSorted writes expressions = true → restoredAll writes (readAll expressions) = expressions
  | [], _, _, _ => rfl
  | first :: rest, affixed, guarded, sorted => by
    rw [areAffixed, Bool.and_eq_true] at affixed
    rw [areGuarded, Bool.and_eq_true] at guarded
    rw [areSorted, Bool.and_eq_true] at sorted
    rw [readAll, restoredAll, restored_read affixed.1 guarded.1 sorted.1,
      restoredAll_readAll affixed.2 guarded.2 sorted.2]

end

/-- Expressions of operators before and after, calls and properties are printed alike exactly if
they are read as the same expression. So they are printed apart if no operator stands bare before
what something comes after, and operators that write back are not those that do not. -/
theorem affixes_print_alike_iff {expression other : Expression}
    (affixed : expression.isAffixed = true) (otherAffixed : other.isAffixed = true)
    (proper : expression.program.isProper = true) (otherProper : other.program.isProper = true) :
    expression.printed.isSome = true ∧ other.printed.isSome = true ∧
      (expression.printed = other.printed ↔ expression.read = other.read) ∧
      ∀ writes : String → Bool, expression.isGuarded = true → other.isGuarded = true →
        expression.isSorted writes = true → other.isSorted writes = true →
          expression.printed = other.printed → expression = other := by
  have alike := tokens_eq_iff affixed otherAffixed
  rw [printed_eq proper, printed_eq otherProper, Option.some.injEq]
  refine ⟨rfl, rfl, alike, fun writes guarded otherGuarded sorted otherSorted same => ?_⟩
  rw [← restored_read affixed guarded sorted, ← restored_read otherAffixed otherGuarded otherSorted,
    alike.mp same]

/-- `(!f)()` -/
def calledNegation : Expression := .call (.unary "!" (.identifier "f")) []

/-- `!f()` -/
def negatedCall : Expression := .unary "!" (.call (.identifier "f") [])

/-- Calling the negation of a function is printed as negating its result. -/
theorem called_negation_prints_as_negated_call :
    calledNegation.isAffixed = true ∧ negatedCall.isAffixed = true ∧
      calledNegation.program.isProper = true ∧ negatedCall.program.isProper = true ∧
      calledNegation.printed.isSome = true ∧ calledNegation.printed = negatedCall.printed ∧
      calledNegation ≠ negatedCall := by
  obtain ⟨printed, _, alike, _⟩ := @affixes_print_alike_iff calledNegation negatedCall
    rfl rfl rfl rfl
  exact ⟨rfl, rfl, rfl, rfl, printed, alike.mpr rfl, fun same => by cases same⟩

end Affixes

end CodeTree
