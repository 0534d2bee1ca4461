/-
Operators in print. Expressions of operators, conditionals, assignments, properties and sequences
are read back from their tokens by a grammar that looks at one token at a time: what stands first
among the tokens that are left settles which rule applies. So a list of tokens is read in one way
at most. An expression is read from its own tokens, whatever comes after them, as long as this
cannot be taken for a part of it. Two expressions with the same tokens are therefore the same.
-/

import CodeTree.Proofs.Wrapping

namespace CodeTree

variable {expression left other right : Expression} {rest : List Token} {tier : Nat}
  {operator : String}

namespace Expression

/-! ### The expressions -/

mutual

/-- Whether an expression is made of names, operators of the tiers between two operands, operators
before an operand, conditionals, assignments with other operators, properties, and sequences of at
least two elements. -/
def isOperation : Expression → Bool
  | identifier _ => true
  | unary _ argument => isOperation argument
  | binary operator left right =>
    (precedence? operator).isSome && isOperation left && isOperation right
  | conditional test consequent alternate =>
    isOperation test && isOperation consequent && isOperation alternate
  | assignment operator _ value => (precedence? operator).isNone && isOperation value
  | member object _ => isOperation object
  | sequence elements => decide (2 ≤ elements.length) && areOperations elements
  | update _ _ _ | call _ _ => false
termination_by structural expression => expression

def areOperations : List Expression → Bool
  | [] => true
  | first :: rest => isOperation first && areOperations rest
termination_by structural expressions => expressions

end

end Expression

namespace Place

/-- Whether a place is one where nothing but a sequence is wrapped. -/
def isLoose : Place → Bool
  | consequent | alternate | assigned | element => true
  | _ => false

theorem wraps_of_isLoose {place : Place} (loose : place.isLoose = true) :
    place.wraps expression = match expression with | .sequence _ => true | _ => false := by
  cases place with
  | consequent | alternate | assigned | element => cases expression <;> rfl
  | _ => cases loose

end Place

namespace Operators

open Expression

/-! ### The grammar -/

/-- The expression of what has been read with commas between. -/
def gathered : List Expression → Expression
  | [alone] => alone
  | elements => .sequence elements

/-- What is to be read next. -/
inductive Phase where
  | whole
  /-- More elements of a sequence. -/
  | listing (done : List Expression)
  | element
  /-- The rest of a conditional or an assignment, if it is one. -/
  | choosing (first : Expression)
  /-- Operands and operators that bind at least as tightly as a tier. -/
  | operand (least : Nat)
  | climbing (least : Nat) (left : Expression)
  | single
  /-- More names of properties. -/
  | dotting (object : Expression)

/-- In a phase, tokens are read as an expression, up to a rest. -/
inductive Reads : Phase → List Token → Expression → List Token → Prop where
  | whole {tokens first mid expression rest} : Reads .element tokens first mid →
    Reads (.listing [first]) mid expression rest → Reads .whole tokens expression rest
  | comma {tokens done next mid expression rest} : Reads .element tokens next mid →
    Reads (.listing (done ++ [next])) mid expression rest →
      Reads (.listing done) (.comma :: tokens) expression rest
  | listed {tokens done} : tokens.head? ≠ some .comma →
    Reads (.listing done) tokens (gathered done) tokens
  | element {tokens first mid expression rest} : Reads (.operand 0) tokens first mid →
    Reads (.choosing first) mid expression rest → Reads .element tokens expression rest
  | question {tokens test consequent mid alternate rest} :
    Reads .element tokens consequent (.colon :: mid) → Reads .element mid alternate rest →
      Reads (.choosing test) (.question :: tokens) (.conditional test consequent alternate) rest
  | assignment {tokens name operator value rest} : Reads .element tokens value rest →
    Reads (.choosing (.identifier name)) (.operator operator :: tokens)
      (.assignment operator name value) rest
  | chosen {tokens first} : tokens.head? ≠ some .question →
    (∀ operator, tokens.head? ≠ some (.operator operator)) →
      Reads (.choosing first) tokens first tokens
  | operand {tokens least left mid expression rest} : Reads .single tokens left mid →
    Reads (.climbing least left) mid expression rest →
      Reads (.operand least) tokens expression rest
  | climb {tokens least tier operator left right mid expression rest} :
    precedence? operator = some tier → least ≤ tier →
    Reads (.operand (tier + 1)) tokens right mid →
    Reads (.climbing least (.binary operator left right)) mid expression rest →
      Reads (.climbing least left) (.operator operator :: tokens) expression rest
  | climbed {tokens least left} :
    (∀ operator tier, tokens.head? = some (.operator operator) →
      precedence? operator = some tier → tier < least) →
      Reads (.climbing least left) tokens left tokens
  | operator {tokens operator argument rest} : Reads .single tokens argument rest →
    Reads .single (.operator operator :: tokens) (.unary operator argument) rest
  | name {tokens name expression rest} :
    Reads (.dotting (.identifier name)) tokens expression rest →
    Reads .single (.name name :: tokens) expression rest
  | parentheses {tokens inner mid expression rest} : Reads .whole tokens inner (.closing :: mid) →
    Reads (.dotting inner) mid expression rest → Reads .single (.opening :: tokens) expression rest
  | dot {tokens object name expression rest} :
    Reads (.dotting (.member object name)) tokens expression rest →
      Reads (.dotting object) (.dot :: .name name :: tokens) expression rest
  | dotted {tokens object} : tokens.head? ≠ some .dot →
    Reads (.dotting object) tokens object tokens

/-- Tokens are read in one way at most. -/
theorem Reads.unique {phase : Phase} {tokens otherRest : List Token}
    (first : Reads phase tokens expression rest) (second : Reads phase tokens other otherRest) :
    expression = other ∧ rest = otherRest := by
  induction first generalizing other otherRest with
  | whole _ _ head tail =>
    cases second with
    | whole again more =>
      obtain ⟨rfl, rfl⟩ := head again
      exact tail more
  | comma _ _ head tail =>
    cases second with
    | comma again more =>
      obtain ⟨rfl, rfl⟩ := head again
      exact tail more
    | listed stop => exact absurd rfl stop
  | listed stop =>
    cases second with
    | comma => exact absurd rfl stop
    | listed => exact ⟨rfl, rfl⟩
  | element _ _ head tail =>
    cases second with
    | element again more =>
      obtain ⟨rfl, rfl⟩ := head again
      exact tail more
  | question _ _ head tail =>
    cases second with
    | question again more =>
      obtain ⟨rfl, same⟩ := head again
      cases same
      obtain ⟨rfl, rfl⟩ := tail more
      exact ⟨rfl, rfl⟩
    | chosen stop => exact absurd rfl stop
  | assignment _ assigned =>
    cases second with
    | assignment again =>
      obtain ⟨rfl, rfl⟩ := assigned again
      exact ⟨rfl, rfl⟩
    | chosen _ stop => exact absurd rfl (stop _)
  | chosen noQuestion noOperator =>
    cases second with
    | question => exact absurd rfl noQuestion
    | assignment => exact absurd rfl (noOperator _)
    | chosen => exact ⟨rfl, rfl⟩
  | operand _ _ head tail =>
    cases second with
    | operand again more =>
      obtain ⟨rfl, rfl⟩ := head again
      exact tail more
  | climb binds tight _ _ head tail =>
    cases second with
    | climb bindsToo _ again more =>
      cases binds.symm.trans bindsToo
      obtain ⟨rfl, rfl⟩ := head again
      exact tail more
    | climbed stop => exact absurd tight (Nat.not_le.mpr (stop _ _ rfl binds))
  | climbed stop =>
    cases second with
    | climb binds tight => exact absurd tight (Nat.not_le.mpr (stop _ _ rfl binds))
    | climbed => exact ⟨rfl, rfl⟩
  | operator _ argument =>
    cases second with
    | operator again =>
      obtain ⟨rfl, rfl⟩ := argument again
      exact ⟨rfl, rfl⟩
  | name _ tail =>
    cases second with
    | name more => exact tail more
  | parentheses _ _ head tail =>
    cases second with
    | parentheses again more =>
      obtain ⟨rfl, same⟩ := head again
      cases same
      exact tail more
  | dot _ tail =>
    cases second with
    | dot more => exact tail more
    | dotted stop => exact absurd rfl stop
  | dotted stop =>
    cases second with
    | dot => exact absurd rfl stop
    | dotted => exact ⟨rfl, rfl⟩

/-! ### Tokens that are read as an expression -/

/-- What comes after an element cannot be taken for a part of it. -/
def Ends (rest : List Token) : Prop :=
  ∀ token ∈ rest.head?, token = .comma ∨ token = .closing ∨ token = .colon

/-- What comes after an operand is no property of it, and no operator takes its right operand away
that binds more tightly than a tier. -/
structure Stops (tier : Nat) (rest : List Token) : Prop where
  noDot : rest.head? ≠ some .dot
  loose : ∀ operator other, rest.head? = some (.operator operator) →
    precedence? operator = some other → other ≤ tier

/-- Tokens are read as an expression of which properties can be taken. -/
def AsPrimary (tokens : List Token) (expression : Expression) : Prop :=
  ∀ rest result final, Reads (.dotting expression) rest result final →
    Reads .single (tokens ++ rest) result final

/-- Tokens are read as an expression to which operators can be applied. -/
def AsSingle (tokens : List Token) (expression : Expression) : Prop :=
  ∀ rest, rest.head? ≠ some .dot → Reads .single (tokens ++ rest) expression rest

/-- Tokens are read as the left operand of operators up to a tier. -/
def AsOperand (tier : Nat) (tokens : List Token) (expression : Expression) : Prop :=
  ∀ least rest result final, least ≤ tier → Stops tier rest →
    Reads (.climbing least expression) rest result final →
      Reads (.operand least) (tokens ++ rest) result final

def AsElement (tokens : List Token) (expression : Expression) : Prop :=
  ∀ rest, Ends rest → Reads .element (tokens ++ rest) expression rest

def AsWhole (tokens : List Token) (expression : Expression) : Prop :=
  ∀ rest, (∀ token ∈ rest.head?, token = .closing) →
    Reads .whole (tokens ++ rest) expression rest

section As

variable {tokens : List Token}

theorem Ends.stops (ends : Ends rest) (tier : Nat) : Stops tier rest := by
  refine ⟨fun dot => ?_, fun operator _ here => ?_⟩
  · rcases ends _ dot with same | same | same <;> cases same
  · rcases ends _ here with same | same | same <;> cases same

theorem AsPrimary.single (primary : AsPrimary tokens expression) : AsSingle tokens expression :=
  fun _ noDot => primary _ _ _ (.dotted noDot)

theorem AsSingle.operand (single : AsSingle tokens expression) (tier : Nat) :
    AsOperand tier tokens expression :=
  fun _ _ _ _ _ stops climbs => .operand (single _ stops.noDot) climbs

theorem AsOperand.element {tier : Nat} (operand : AsOperand tier tokens expression) :
    AsElement tokens expression := by
  intro rest ends
  refine .element (operand _ _ _ _ (Nat.zero_le tier) (ends.stops tier) (.climbed ?_))
    (.chosen ?_ ?_)
  · intro operator _ here
    rcases ends _ here with same | same | same <;> cases same
  · intro here
    rcases ends _ here with same | same | same <;> cases same
  · intro operator here
    rcases ends _ here with same | same | same <;> cases same

theorem AsElement.whole (element : AsElement tokens expression) : AsWhole tokens expression := by
  intro rest closes
  refine .whole (element _ fun token here => .inr (.inl (closes token here))) (.listed ?_)
  intro comma
  cases closes _ comma

theorem AsWhole.parenthesized (whole : AsWhole tokens expression) :
    AsPrimary (parenthesized tokens) expression := by
  intro rest result final dots
  have inside : Reads .whole (tokens ++ .closing :: rest) expression (.closing :: rest) :=
    whole _ fun token here => (Option.some.inj here).symm
  rw [parenthesized_append]
  exact .parentheses inside dots

end As

/-! ### Expressions are read from their tokens -/

/-- What the tokens of an expression are read as, by its form. -/
def Readable (expression : Expression) : Prop :=
  match expression with
  | .identifier _ | .member _ _ => AsPrimary expression.tokens expression
  | .unary _ _ => AsSingle expression.tokens expression
  | .binary operator _ _ =>
    ∀ tier, precedence? operator = some tier → AsOperand tier expression.tokens expression
  | .conditional _ _ _ | .assignment _ _ _ => AsElement expression.tokens expression
  | _ => AsWhole expression.tokens expression

section Placed

variable (operation : expression.isOperation = true) (readable : Readable expression)

include operation

theorem binary_binds (same : expression = .binary operator left right) :
    ∃ tier, precedence? operator = some tier := by
  subst same
  simp only [isOperation, Bool.and_eq_true] at operation
  exact Option.isSome_iff_exists.mp operation.1.1

include readable

theorem asWhole : AsWhole expression.tokens expression := by
  cases expression with
  | identifier | member => exact ((readable.single.operand 0).element).whole
  | unary => exact ((AsSingle.operand readable 0).element).whole
  | binary operator left right =>
    obtain ⟨tier, binds⟩ := binary_binds operation rfl
    exact (readable tier binds).element.whole
  | conditional | assignment => exact AsElement.whole readable
  | update | call | sequence => exact readable

theorem placed_object : AsPrimary (placed .object expression expression.tokens) expression := by
  have wrapped := (asWhole operation readable).parenthesized
  cases expression with
  | identifier | member => exact readable
  | update | call => cases operation
  | _ => exact wrapped

theorem placed_argument : AsSingle (placed .argument expression expression.tokens) expression := by
  have wrapped := (asWhole operation readable).parenthesized.single
  cases expression with
  | identifier | member => exact readable.single
  | unary => exact readable
  | update | call => cases operation
  | _ => exact wrapped

/-- An operand of an operator, on either side. -/
theorem placed_operand {outer : String} (binds : precedence? outer = some tier) :
    (∃ level, tier ≤ level ∧
      AsOperand level (placed (.left outer) expression expression.tokens) expression) ∧
    ∃ level, tier < level ∧
      AsOperand level (placed (.right outer) expression expression.tokens) expression := by
  have wrapped := (asWhole operation readable).parenthesized.single.operand (tier + 1)
  have single (single : AsSingle expression.tokens expression) := single.operand (tier + 1)
  cases expression with
  | identifier | member =>
    exact ⟨⟨_, Nat.le_succ tier, single readable.single⟩, _, Nat.lt_succ_self tier,
      single readable.single⟩
  | unary =>
    exact ⟨⟨_, Nat.le_succ tier, single readable⟩, _, Nat.lt_succ_self tier, single readable⟩
  | update | call => cases operation
  | binary inner left right =>
    obtain ⟨own, bindsInner⟩ := binary_binds operation rfl
    have operand := readable own bindsInner
    constructor
    · by_cases looser : own < tier
      · refine ⟨_, Nat.le_succ tier, ?_⟩
        rwa [placed, Place.wraps, Place.gives, binds, bindsInner, if_pos (by simp [looser])]
      · refine ⟨own, Nat.le_of_not_lt looser, ?_⟩
        rwa [placed, Place.wraps, Place.gives, binds, bindsInner, if_neg (by simp [looser])]
    · by_cases tighter : tier < own
      · refine ⟨own, tighter, ?_⟩
        rwa [placed, Place.wraps, Place.gives, binds, bindsInner, if_neg (by simp; omega)]
      · refine ⟨_, Nat.lt_succ_self tier, ?_⟩
        rwa [placed, Place.wraps, Place.gives, binds, bindsInner, if_pos (by simp; omega)]
  | _ => exact ⟨⟨_, Nat.le_succ tier, wrapped⟩, _, Nat.lt_succ_self tier, wrapped⟩

theorem placed_test : ∃ tier, AsOperand tier (placed .test expression expression.tokens)
    expression := by
  have wrapped := (asWhole operation readable).parenthesized.single.operand 0
  cases expression with
  | identifier | member => exact ⟨0, readable.single.operand 0⟩
  | unary => exact ⟨0, AsSingle.operand readable 0⟩
  | binary operator left right =>
    obtain ⟨tier, binds⟩ := binary_binds operation rfl
    exact ⟨tier, readable tier binds⟩
  | update | call => cases operation
  | _ => exact ⟨0, wrapped⟩

/-- Where only sequences are wrapped, everything is read as an element. -/
theorem placed_element {place : Place} (loose : place.isLoose = true) :
    AsElement (placed place expression expression.tokens) expression := by
  have wrapped := ((asWhole operation readable).parenthesized.single.operand 0).element
  rw [placed, Place.wraps_of_isLoose loose]
  cases expression with
  | identifier | member => exact (readable.single.operand 0).element
  | unary => exact (AsSingle.operand readable 0).element
  | binary operator left right =>
    obtain ⟨tier, binds⟩ := binary_binds operation rfl
    exact (readable tier binds).element
  | conditional | assignment => exact readable
  | update | call => cases operation
  | sequence => exact wrapped

end Placed

/-- The elements of a sequence are read one after another. -/
theorem reads_listing {elements : List Expression} (some : elements ≠ [])
    (readable : ∀ element ∈ elements, element.isOperation = true ∧ Readable element)
    (closes : ∀ token ∈ rest.head?, token = .closing) (done : List Expression) :
    Reads (.listing done) (.comma :: (listed (tokensOf .element elements) ++ rest))
      (gathered (done ++ elements)) rest := by
  induction elements generalizing done with
  | nil => exact absurd rfl some
  | cons first others ih =>
    obtain ⟨operation, reads⟩ := readable first List.mem_cons_self
    have element := @placed_element _ operation reads .element rfl
    cases others with
    | nil =>
      refine .comma (element _ fun token here => .inr (.inl (closes token here))) (.listed ?_)
      intro comma
      cases closes _ comma
    | cons second others =>
      have tail := ih (List.cons_ne_nil second others)
        (fun element member => readable element (List.mem_cons_of_mem _ member)) (done ++ [first])
      rw [List.append_assoc, List.singleton_append] at tail
      rw [listed_tokensOf]
      exact .comma (element _ fun token here => .inl (Option.some.inj here).symm) tail

/-- Two operands are read with their operator between them. -/
theorem reads_binary (binds : precedence? operator = some tier)
    (leftOperation : left.isOperation = true) (rightOperation : right.isOperation = true)
    (readableLeft : Readable left) (readableRight : Readable right) :
    AsOperand tier (tokens (.binary operator left right)) (.binary operator left right) := by
  intro least rest result final tight stops climbs
  obtain ⟨⟨level, above, first⟩, _⟩ := placed_operand leftOperation readableLeft binds
  obtain ⟨_, beyond, higher, second⟩ := placed_operand rightOperation readableRight binds
  rw [tokens, List.append_assoc, List.cons_append]
  refine first _ _ _ _ (Nat.le_trans tight above) ⟨by simp, ?_⟩ (.climb binds tight ?_ climbs)
  · rintro _ other ⟨⟩ same
    cases binds.symm.trans same
    exact above
  · -- The right operand ends where no operator follows that binds more tightly.
    have loose (operator : String) (other : Nat) (here : rest.head? = some (.operator operator))
        (same : precedence? operator = some other) : other ≤ tier := stops.loose _ _ here same
    refine second _ _ _ _ higher ⟨stops.noDot, ?_⟩ (.climbed ?_)
    · intro operator other here same
      exact Nat.le_of_lt (Nat.lt_of_le_of_lt (loose operator other here same) higher)
    · intro operator other here same
      exact Nat.lt_succ_of_le (loose operator other here same)

mutual

/-- Every expression is read from its own tokens. -/
theorem readable : ∀ {expression : Expression}, expression.isOperation = true →
    Readable expression
  | .identifier name, _ => fun _ _ _ dots => .name dots
  | .unary operator argument, operation => by
    rw [isOperation] at operation
    intro rest noDot
    exact .operator (placed_argument operation (readable operation) rest noDot)
  | .binary operator left right, operation => by
    rw [isOperation, Bool.and_eq_true, Bool.and_eq_true] at operation
    intro tier binds
    exact reads_binary binds operation.1.2 operation.2 (readable operation.1.2)
      (readable operation.2)
  | .conditional test consequent alternate, operation => by
    rw [isOperation, Bool.and_eq_true, Bool.and_eq_true] at operation
    intro rest ends
    obtain ⟨tier, asked⟩ := placed_test operation.1.1 (readable operation.1.1)
    have first := @placed_element _ operation.1.2 (readable operation.1.2) .consequent rfl
    have second := @placed_element _ operation.2 (readable operation.2) .alternate rfl
    have head (behind : List Token) :
        Reads (.operand 0) (placed .test test test.tokens ++ .question :: behind) test
          (.question :: behind) :=
      asked _ _ _ _ (Nat.zero_le tier) ⟨by simp, by simp⟩ (.climbed (by simp))
    rw [tokens, List.append_assoc, List.append_assoc, List.cons_append, List.cons_append]
    exact .element (head _) (.question
      (first _ fun _ here => .inr (.inr (Option.some.inj here).symm)) (second _ ends))
  | .assignment operator name value, operation => by
    rw [isOperation, Bool.and_eq_true, Option.isNone_iff_eq_none] at operation
    intro rest ends
    have assigned := @placed_element _ operation.2 (readable operation.2) .assigned rfl
    have target (behind : List Token) : Reads (.operand 0)
        (.name name :: .operator operator :: behind) (.identifier name)
        (.operator operator :: behind) := by
      refine .operand (.name (.dotted (by simp))) (.climbed ?_)
      rintro _ tier ⟨⟩ binds
      rw [operation.1] at binds
      cases binds
    exact .element (target _) (.assignment (assigned _ ends))
  | .member object name, operation => by
    rw [isOperation] at operation
    intro rest result final dots
    rw [tokens, List.append_assoc]
    exact placed_object operation (readable operation) _ _ _ (.dot dots)
  | .sequence elements, operation => by
    rw [isOperation, Bool.and_eq_true, decide_eq_true_eq] at operation
    intro rest closes
    have all := areReadable operation.2
    cases elements with
    | nil => exact absurd operation.1 (Nat.not_succ_le_zero 1)
    | cons first others =>
      cases others with
      | nil => exact absurd operation.1 (Nat.not_succ_le_self 1)
      | cons second others =>
        obtain ⟨firstOperation, reads⟩ := all first List.mem_cons_self
        have element := @placed_element _ firstOperation reads .element rfl
        have tail := reads_listing (List.cons_ne_nil second others)
          (fun element member => all element (List.mem_cons_of_mem _ member)) closes [first]
        rw [tokens, listed_tokensOf]
        exact .whole (element _ fun _ here => .inl (Option.some.inj here).symm) tail

theorem areReadable : ∀ {expressions : List Expression}, areOperations expressions = true →
    ∀ expression ∈ expressions, expression.isOperation = true ∧ Readable expression
  | [], _, _, inside => nomatch inside
  | first :: rest, operations, expression, inside => by
    rw [areOperations, Bool.and_eq_true] at operations
    rcases List.mem_cons.mp inside with same | later
    · rw [same]
      exact ⟨operations.1, readable operations.1⟩
    · exact areReadable operations.2 expression later

end

theorem tokens_injective (operation : expression.isOperation = true)
    (otherOperation : other.isOperation = true) (same : expression.tokens = other.tokens) :
    expression = other := by
  have reads := asWhole operation (readable operation) [] (by simp)
  have readsOther := asWhole otherOperation (readable otherOperation) [] (by simp)
  rw [same] at reads
  exact (reads.unique readsOther).1

/-- Expressions of operators are printed, and those that are printed alike are the same. -/
theorem operators_print_unambiguously {expression other : Expression}
    (operation : expression.isOperation = true) (otherOperation : other.isOperation = true)
    (proper : expression.program.isProper = true) (otherProper : other.program.isProper = true) :
    expression.printed.isSome = true ∧ other.printed.isSome = true ∧
      (expression.printed = other.printed → expression = other) := by
  rw [printed_eq proper, printed_eq otherProper]
  refine ⟨rfl, rfl, fun same => ?_⟩
  exact tokens_injective operation otherOperation (Option.some.inj same)

/-- `a - b - c` -/
def leftNested : Expression :=
  .binary "-" (.binary "-" (.identifier "a") (.identifier "b")) (.identifier "c")

/-- `a - (b - c)` -/
def rightNested : Expression :=
  .binary "-" (.identifier "a") (.binary "-" (.identifier "b") (.identifier "c"))

/-- Parentheses tell on which side a difference is nested. -/
theorem nested_differences_print_apart :
    leftNested.isOperation = true ∧ rightNested.isOperation = true ∧
      leftNested.program.isProper = true ∧ rightNested.program.isProper = true ∧
      leftNested.printed.isSome = true ∧ leftNested.printed ≠ rightNested.printed := by
  obtain ⟨printed, _, injective⟩ := @operators_print_unambiguously leftNested rightNested
    rfl rfl rfl rfl
  refine ⟨rfl, rfl, rfl, rfl, printed, fun same => ?_⟩
  injection injective same with _ left
  cases left

end Operators

end CodeTree
