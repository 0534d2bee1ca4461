/-
Which types derive from which. Scanning a worklist keeps the last occurrence of every type that has
been met, and appends the bases of a type behind it. So when the scan is at its end, what remains is
the type and its ancestors, each once and before all that it derives from. In a finite table without
cycles there is such an end, since a type can be given more weight than its bases have together.

In the vocabulary only types that group others are bases. A value is thus of a type that can be
written down exactly if that is its own type.
-/

import CodeTree.Schema.Lineage
import Mathlib.Algebra.GroupWithZero.Nat
import Mathlib.Data.Fintype.Card
import Mathlib.Logic.Relation

namespace CodeTree

namespace Lineage

variable {α : Type} {bases : α → List α}

/-! ### Ancestry -/

/-- A type is the other or derives from it. -/
def Derives (bases : α → List α) : α → α → Prop :=
  Relation.ReflTransGen (fun type base => base ∈ bases type)

/-- A type derives from the other by way of at least one base. -/
def DerivesStrictly (bases : α → List α) : α → α → Prop :=
  Relation.TransGen (fun type base => base ∈ bases type)

/-- No type derives from itself. -/
def Acyclic (bases : α → List α) : Prop := ∀ type, ¬ DerivesStrictly bases type type

/-- A table that some measure decreases along has no cycles. -/
theorem acyclic_of_measure (measure : α → Nat)
    (decreases : ∀ type, ∀ base ∈ bases type, measure base < measure type) : Acyclic bases := by
  have less : ∀ {type other}, DerivesStrictly bases type other → measure other < measure type := by
    intro type other above
    induction above with
    | single base => exact decreases _ _ base
    | tail _ base ih => exact (decreases _ _ base).trans ih
  exact fun type cycle => absurd (less cycle) (lt_irrefl _)

/-- In a finite table without cycles a type can be given more weight than all its bases. -/
theorem Acyclic.exists_weight [Finite α] (acyclic : Acyclic bases) :
    ∃ weight : α → Nat, ∀ type, ((bases type).map weight).sum < weight type := by
  let below (base type : α) : Prop := DerivesStrictly bases type base
  have : IsTrans α below := ⟨fun _ _ _ first second => second.trans first⟩
  have : Std.Irrefl below := ⟨acyclic⟩
  have wellFounded : WellFounded below := Finite.wellFounded_of_trans_of_irrefl below
  refine ⟨wellFounded.fix fun type weigh =>
    ((bases type).attach.map fun base => weigh base.1 (.single base.2)).sum + 1, fun type => ?_⟩
  rw [wellFounded.fix_eq, Nat.lt_succ_iff]
  exact (congrArg List.sum List.attach_map_val).ge

/-- A list holds a type and its ancestors, each once and before all that it derives from. -/
structure IsLineage (bases : α → List α) (start : α) (lineage : List α) : Prop where
  nodup : lineage.Nodup
  mem_iff : ∀ type, type ∈ lineage ↔ Derives bases start type
  before : ∀ type ∈ lineage, ∀ other, DerivesStrictly bases type other →
    [type, other].Sublist lineage

/-! ### Unfolding -/

/-- All that has been met derives from the start, and the bases of a scanned type are behind it. -/
structure Unfolds (bases : α → List α) (start : α) (scanned pending : List α) : Prop where
  start_mem : start ∈ scanned ++ pending
  derives : ∀ type ∈ scanned ++ pending, Derives bases start type
  behind : ∀ {front type back}, scanned = front ++ type :: back →
    ∀ base ∈ bases type, base ∈ back ++ pending

variable {start type : α} {scanned pending lineage : List α}

namespace Unfolds

theorem initial (bases : α → List α) (start : α) : Unfolds bases start [] [start] where
  start_mem := List.mem_singleton_self start
  derives _ member := List.mem_singleton.mp member ▸ .refl
  behind split := by simp at split

theorem step (unfolds : Unfolds bases start scanned (type :: pending)) :
    Unfolds bases start (scanned ++ [type]) (pending ++ bases type) where
  start_mem := by
    rw [List.append_assoc, List.singleton_append, ← List.cons_append, ← List.append_assoc]
    exact List.mem_append_left _ unfolds.start_mem
  derives other member := by
    rw [List.append_assoc, List.singleton_append, ← List.cons_append, ← List.append_assoc] at member
    rcases List.mem_append.mp member with met | base
    · exact unfolds.derives other met
    · exact (unfolds.derives type (by simp)).tail base
  behind {front other back} split base direct := by
    rcases List.eq_nil_or_concat back with rfl | ⟨before, last, rfl⟩
    · obtain ⟨_, same⟩ := List.append_inj' split rfl
      rw [List.singleton_inj.mp same]
      exact List.mem_append_right _ (List.mem_append_right _ direct)
    · rw [List.concat_eq_append, ← List.cons_append, ← List.append_assoc] at split
      obtain ⟨rfl, same⟩ := List.append_inj' split rfl
      have met := unfolds.behind rfl base direct
      grind

/-- Behind a type stands all that it derives from. -/
theorem mem_behind {front back : List α} {other : α}
    (unfolds : Unfolds bases start (front ++ type :: back) [])
    (above : DerivesStrictly bases type other) : other ∈ back := by
  induction above with
  | single direct => simpa using unfolds.behind rfl _ direct
  | tail _ direct ih =>
    obtain ⟨between, further, rfl⟩ := List.append_of_mem ih
    rw [← List.cons_append, ← List.append_assoc] at unfolds
    have member := unfolds.behind rfl _ direct
    rw [List.append_nil] at member
    exact List.mem_append_right _ (List.mem_cons_of_mem _ member)

end Unfolds

variable [DecidableEq α]

/-! ### Last occurrences -/

/-- Blanks all but the last occurrence of every element. -/
def blankEarlier : List α → List (Option α)
  | [] => []
  | head :: rest => (if head ∈ rest then none else some head) :: blankEarlier rest

/-- Keeps the last occurrence of every element. -/
def keepLast (list : List α) : List α := (blankEarlier list).filterMap id

/-- Where an element occurs last. -/
def lastIndex? (element : α) : List α → Option Nat
  | [] => none
  | head :: rest =>
    match lastIndex? element rest with
    | some index => some (index + 1)
    | none => if element = head then some 0 else none

theorem lastIndex?_eq_none {element : α} {list : List α} :
    lastIndex? element list = none ↔ element ∉ list := by
  induction list with
  | nil => simp [lastIndex?]
  | cons head rest ih => grind [lastIndex?]

theorem lastIndex?_lt {element : α} {list : List α} {index : Nat}
    (last : lastIndex? element list = some index) : index < list.length := by
  induction list generalizing index with
  | nil => cases last
  | cons head rest ih => grind [lastIndex?]

theorem lastIndex?_concat (element last : α) (list : List α) :
    lastIndex? element (list ++ [last]) =
      if element = last then some list.length else lastIndex? element list := by
  induction list with
  | nil => rfl
  | cons head rest ih => grind [lastIndex?]

/-- One more element blanks the place where it occurred last. -/
theorem blankEarlier_concat (list : List α) (last : α) :
    blankEarlier (list ++ [last]) =
      (match lastIndex? last list with
        | some index => (blankEarlier list).set index none
        | none => blankEarlier list) ++ [some last] := by
  induction list with
  | nil => rfl
  | cons head rest ih =>
    have absent := @lastIndex?_eq_none _ _ last rest
    grind [lastIndex?, blankEarlier]

theorem length_blankEarlier (list : List α) : (blankEarlier list).length = list.length := by
  induction list with
  | nil => rfl
  | cons head rest ih => exact congrArg (· + 1) ih

theorem keepLast_cons (head : α) (rest : List α) :
    keepLast (head :: rest) = if head ∈ rest then keepLast rest else head :: keepLast rest := by
  rw [keepLast, blankEarlier]
  split <;> rfl

theorem mem_keepLast {element : α} {list : List α} : element ∈ keepLast list ↔ element ∈ list := by
  induction list with
  | nil => rfl
  | cons head rest ih => grind [keepLast_cons]

theorem nodup_keepLast (list : List α) : (keepLast list).Nodup := by
  induction list with
  | nil => exact List.nodup_nil
  | cons head rest ih => grind [keepLast_cons, mem_keepLast]

/-- What occurs last in front of a place stands before all that occurs behind it. -/
theorem sublist_keepLast {early late : α} {back : List α} (gone : early ∉ back)
    (behind : late ∈ back) (front : List α) :
    [early, late].Sublist (keepLast (front ++ early :: back)) := by
  induction front with
  | nil =>
    rw [List.nil_append, keepLast_cons, if_neg gone]
    exact (List.singleton_sublist.mpr (mem_keepLast.mpr behind)).cons_cons early
  | cons head front ih =>
    rw [List.cons_append, keepLast_cons]
    split
    · exact ih
    · exact ih.cons head

/-! ### Scanning -/

/-- A worklist of which some types have been scanned and others are pending. -/
structure Worklist.Holds (worklist : Worklist α) (scanned pending : List α) : Prop where
  entries : worklist.entries = blankEarlier scanned ++ pending.map some
  lastSeen : ∀ type, worklist.lastSeen.get? type = lastIndex? type scanned
  position : worklist.position = scanned.length

variable {worklist next : Worklist α}

namespace Worklist

theorem holds_ofStart (start : α) : (ofStart start).Holds [] [start] := ⟨rfl, fun _ => rfl, rfl⟩

/-- Scanning a type makes its bases pending. -/
theorem Holds.step_cons (holds : worklist.Holds scanned (type :: pending)) (bases : α → List α) :
    ∃ next, worklist.step bases = some next ∧
      next.Holds (scanned ++ [type]) (pending ++ bases type) := by
  have here : worklist.entries[worklist.position]? = some (some type) := by
    rw [holds.entries, holds.position, ← length_blankEarlier, List.map_cons,
      List.getElem?_append_right le_rfl, Nat.sub_self, List.getElem?_cons_zero]
  have blanked : worklist.blanked type = blankEarlier (scanned ++ [type]) ++ pending.map some := by
    rw [Worklist.blanked, holds.lastSeen, blankEarlier_concat, holds.entries]
    cases last : lastIndex? type scanned with
    | none => simp
    | some index =>
      have inside : index < (blankEarlier scanned).length := by
        rw [length_blankEarlier]
        exact lastIndex?_lt last
      simp [List.set_append_left _ _ inside]
  rw [Worklist.step, here]
  refine ⟨_, rfl, ?_, fun other => ?_, ?_⟩
  · rw [blanked, List.append_assoc, List.map_append]
  · rw [Assoc.get?_insert, holds.lastSeen, lastIndex?_concat, holds.position]
  · rw [holds.position, List.length_append, List.length_singleton]

/-- The scan is at its end where nothing is pending. -/
theorem Holds.pending_eq_nil (holds : worklist.Holds scanned pending)
    (last : worklist.step bases = none) : pending = [] := by
  cases pending with
  | nil => rfl
  | cons type rest =>
    obtain ⟨next, steps, _⟩ := holds.step_cons bases
    cases last.symm.trans steps

theorem Holds.step (holds : worklist.Holds scanned pending)
    (steps : worklist.step bases = some next) :
    ∃ type rest, pending = type :: rest ∧ next.Holds (scanned ++ [type]) (rest ++ bases type) := by
  cases pending with
  | nil =>
    rw [step, holds.entries, holds.position, ← length_blankEarlier, List.map_nil, List.append_nil,
      List.getElem?_length] at steps
    cases steps
  | cons type rest =>
    obtain ⟨_, goes, holdsNext⟩ := holds.step_cons bases
    cases steps.symm.trans goes
    exact ⟨type, rest, rfl, holdsNext⟩

end Worklist

/-- What remains at the end of a scan is a lineage. -/
theorem Unfolds.isLineage (unfolds : Unfolds bases start scanned []) :
    IsLineage bases start (keepLast scanned) where
  nodup := nodup_keepLast scanned
  mem_iff type := by
    rw [mem_keepLast, ← List.append_nil scanned]
    refine ⟨unfolds.derives type, fun derives => ?_⟩
    induction derives with
    | refl => exact unfolds.start_mem
    | tail _ direct ih =>
      rw [List.append_nil] at ih ⊢
      obtain ⟨front, back, rfl⟩ := List.append_of_mem ih
      have behind := unfolds.mem_behind (.single direct)
      exact List.mem_append_right _ (List.mem_cons_of_mem _ behind)
  before type member other above := by
    rw [mem_keepLast, ← List.mem_reverse] at member
    obtain ⟨back, front, split, gone⟩ := List.eq_append_cons_of_mem member
    -- The last occurrence is the first one from behind.
    have split : scanned = front.reverse ++ type :: back.reverse := by
      rw [← List.reverse_reverse scanned, split]
      simp
    subst split
    exact sublist_keepLast (by simpa using gone) (unfolds.mem_behind above) _

namespace Worklist

variable {limit : Nat}

/-- A scan that has come to its end goes no further. -/
theorem scan_mono (ended : worklist.scan bases limit = some lineage) {more : Nat}
    (least : limit ≤ more) : worklist.scan bases more = some lineage := by
  fun_induction scan bases limit worklist generalizing more with
  | case1 worklist limit last =>
    rw [scan.eq_def, last]
    exact ended
  | case2 => cases ended
  | case3 worklist next limit steps ih =>
    obtain ⟨more, rfl⟩ : ∃ rest, more = rest + 1 := ⟨more - 1, by omega⟩
    rw [scan.eq_def, steps]
    exact ih ended (Nat.le_of_succ_le_succ least)

/-- Whatever the table, a scan that comes to its end gives the lineage. -/
theorem Holds.isLineage (holds : worklist.Holds scanned pending)
    (unfolds : Unfolds bases start scanned pending)
    (ended : worklist.scan bases limit = some lineage) : IsLineage bases start lineage := by
  fun_induction scan bases limit worklist generalizing scanned pending with
  | case1 worklist limit last =>
    obtain rfl := holds.pending_eq_nil last
    rw [remaining, holds.entries, List.map_nil, List.append_nil, ← keepLast] at ended
    exact Option.some.inj ended ▸ unfolds.isLineage
  | case2 => cases ended
  | case3 worklist next limit steps ih =>
    obtain ⟨type, rest, rfl, holdsNext⟩ := holds.step steps
    exact ih holdsNext unfolds.step ended

/-- The weight of what is pending bounds the number of entries that are still to be scanned. -/
theorem Holds.scan_isSome {weight : α → Nat}
    (weighs : ∀ type, ((bases type).map weight).sum < weight type)
    (holds : worklist.Holds scanned pending) (enough : (pending.map weight).sum ≤ limit) :
    (worklist.scan bases limit).isSome := by
  fun_induction scan bases limit worklist generalizing scanned pending with
  | case1 => rfl
  | case2 worklist next steps =>
    obtain ⟨type, rest, rfl, _⟩ := holds.step steps
    rw [List.map_cons, List.sum_cons] at enough
    exact absurd (weighs type) (by omega)
  | case3 worklist next limit steps ih =>
    obtain ⟨type, rest, rfl, holdsNext⟩ := holds.step steps
    refine ih holdsNext ?_
    have lighter := weighs type
    rw [List.map_cons, List.sum_cons] at enough
    rw [List.map_append, List.sum_append]
    omega

end Worklist

/-- What linearizing gives is a lineage. -/
theorem isLineage_linearize {limit : Nat} (ended : linearize bases limit start = some lineage) :
    IsLineage bases start lineage :=
  (Worklist.holds_ofStart start).isLineage (.initial bases start) ended

/-- In a finite table without cycles linearizing comes to an end. -/
theorem Acyclic.linearize_ends [Finite α] (acyclic : Acyclic bases) (start : α) :
    ∃ turns lineage, ∀ limit, turns ≤ limit → linearize bases limit start = some lineage := by
  obtain ⟨weight, weighs⟩ := acyclic.exists_weight
  obtain ⟨lineage, ended⟩ := Option.isSome_iff_exists.mp
    ((Worklist.holds_ofStart start).scan_isSome weighs le_rfl)
  exact ⟨_, lineage, fun limit enough => Worklist.scan_mono ended enough⟩

end Lineage

namespace NodeType

open Lineage

theorem linearize_bases (type : NodeType) :
    linearize bases all.length type = some type.supertypes :=
  (Option.some_get _).symm

theorem isLineage_supertypes (type : NodeType) : IsLineage bases type type.supertypes :=
  isLineage_linearize type.linearize_bases

theorem isAbstract_of_base {type base : NodeType} (member : base ∈ bases type) :
    base.isAbstract = true := by
  cases type <;> simp only [bases, List.mem_cons, List.not_mem_nil, or_false] at member <;>
    first
    | exact member.elim
    | rcases member with rfl | rfl | rfl <;> rfl

theorem isSubtypeOf_self (type : NodeType) : type.isSubtypeOf type = true :=
  List.contains_iff_mem.mpr ((type.isLineage_supertypes.mem_iff type).mpr .refl)

/-- Nothing derives from a type that can be written down but the type itself. -/
theorem isSubtypeOf_iff {type other : NodeType} (concrete : other.isAbstract = false) :
    type.isSubtypeOf other = true ↔ type = other := by
  constructor
  · intro derives
    have member : other ∈ type.supertypes := List.contains_iff_mem.mp derives
    rcases ((type.isLineage_supertypes.mem_iff other).mp member).cases_tail with same | ⟨_, _, base⟩
    · exact same.symm
    · rw [isAbstract_of_base base] at concrete
      cases concrete
  · rintro rfl
    exact isSubtypeOf_self type

theorem any_isSubtypeOf_iff {own? : Option NodeType} {type : NodeType}
    (concrete : type.isAbstract = false) :
    own?.any (fun own => own.isSubtypeOf type) = true ↔ own? = some type := by
  rw [Option.any_eq_true]
  constructor
  · rintro ⟨own, rfl, derives⟩
    rw [(isSubtypeOf_iff concrete).mp derives]
  · rintro rfl
    exact ⟨type, rfl, isSubtypeOf_self type⟩

end NodeType

end CodeTree
