/-
Walks over trees of any kind. A walk needs to know of a place only what stands in its slots and,
since types are written down as texts, which text it is. From this it is settled which slots a
walk goes through and which places it comes to. Documents and the values of a store are both such
terrains, and where two terrains look alike a walk comes to the same places.
-/

import CodeTree.Proofs.TypedTrees
import Mathlib.Data.Option.Basic

namespace CodeTree

/-- What a walk sees of the places that it comes to. -/
structure Terrain (α : Type) where
  /-- What stands in a slot of a place. -/
  inner? : α → SlotName → Option α
  /-- The text that stands at a place. -/
  text? : α → Option String

/-- Whether a walk that is after a type is after comments. -/
def NodeType.includesComments (type : NodeType) : Bool :=
  block.isSubtypeOf type || line.isSubtypeOf type

/-- What is of a type that no comment is of is a node. -/
theorem NodeType.isSubtypeOf_node {own type : NodeType} (derives : own.isSubtypeOf type = true)
    (quiet : type.includesComments = false) : own.isSubtypeOf .node = true := by
  rw [includesComments, Bool.or_eq_false_iff] at quiet
  cases own with
  | block => cases quiet.1.symm.trans derives
  | line => cases quiet.2.symm.trans derives
  | printable =>
    have member : type ∈ NodeType.printable.supertypes := List.contains_iff_mem.mp derives
    rw [show NodeType.printable.supertypes = [.printable] by decide, List.mem_singleton] at member
    subst member
    cases quiet.1
  | comment =>
    have member : type ∈ NodeType.comment.supertypes := List.contains_iff_mem.mp derives
    rw [show NodeType.comment.supertypes = [.comment, .printable] by decide] at member
    simp only [List.mem_cons, List.not_mem_nil, or_false] at member
    rcases member with rfl | rfl <;> cases quiet.1
  | _ => decide

namespace Terrain

section One

variable {α : Type} (terrain : Terrain α)

/-- The type that the text under the `type` key of a place names. -/
def type? (place : α) : Option NodeType :=
  ((terrain.inner? place (.key "type")).bind terrain.text?).bind NodeType.ofName?

/-- Whether a place is of a type or of one that derives from it. -/
def isOf (type : NodeType) (place : α) : Bool :=
  (terrain.type? place).any (fun own => own.isSubtypeOf type)

/-- Whether what stands under the `type` key of a place names no type. -/
def isUnknown (place : α) : Bool :=
  (terrain.inner? place (.key "type")).isSome && (terrain.type? place).isNone

/-- Whether a walk goes through a slot: that of an element, a key of a record without a type, a
declared field of a typed object, or the comments of one if the walk is after comments. -/
def walks (comments : Bool) (place : α) : SlotName → Bool
  | .index _ => true
  | .key key =>
    match terrain.type? place with
    | some type => type.fieldNames.contains key || (comments && key == "comments")
    | none => (terrain.inner? place (.key "type")).isNone

/-- A walk from a place comes along a path to another. -/
inductive Reaches (comments : Bool) : α → List SlotName → α → Prop where
  | here (place : α) : Reaches comments place [] place
  | step {place next part : α} {name : SlotName} {rest : List SlotName} :
    terrain.walks comments place name = true → terrain.inner? place name = some next →
      Reaches comments next rest part → Reaches comments place (name :: rest) part

/-- A walk from a place does not come to anything of a type on its way down. -/
def Lacks (type : NodeType) (place : α) : Prop :=
  ∀ path part, terrain.Reaches type.includesComments place path part → path ≠ [] →
    terrain.isOf type part = false

end One

/-! ### Terrains that look alike -/

/-- Related places of two terrains are the same text, and have related places in their slots. -/
structure Similar {α β : Type} (terrain : Terrain α) (other : Terrain β)
    (related : α → β → Prop) : Prop where
  text : ∀ {a b}, related a b → terrain.text? a = other.text? b
  inner : ∀ {a b}, related a b → ∀ name,
    Option.Rel related (terrain.inner? a name) (other.inner? b name)

namespace Similar

variable {α β : Type} {terrain : Terrain α} {other : Terrain β} {related : α → β → Prop}
  (similar : terrain.Similar other related)

include similar

omit similar in
theorem inner_cases {first : Option α} {second : Option β} (relates : Option.Rel related first second) :
    (first = none ∧ second = none) ∨ ∃ a b, first = some a ∧ second = some b ∧ related a b := by
  cases relates with
  | none => exact .inl ⟨rfl, rfl⟩
  | some relates => exact .inr ⟨_, _, rfl, rfl, relates⟩

theorem symm : other.Similar terrain (fun b a => related a b) where
  text relates := (similar.text relates).symm
  inner relates name := by
    rcases inner_cases (similar.inner relates name) with ⟨gone, away⟩ | ⟨_, _, here, there, inner⟩
    · rw [gone, away]
      exact .none
    · rw [here, there]
      exact .some inner

variable {a : α} {b : β} (relates : related a b)

include relates

theorem isSome_inner (name : SlotName) :
    (terrain.inner? a name).isSome = (other.inner? b name).isSome := by
  rcases inner_cases (similar.inner relates name) with ⟨gone, away⟩ | ⟨_, _, here, there, _⟩
  · rw [gone, away]
    rfl
  · rw [here, there]
    rfl

theorem type? : terrain.type? a = other.type? b := by
  unfold Terrain.type?
  rcases inner_cases (similar.inner relates (.key "type")) with
    ⟨gone, away⟩ | ⟨_, _, here, there, inner⟩
  · rw [gone, away]
    rfl
  · rw [here, there, Option.bind_some, Option.bind_some, similar.text inner]

theorem isOf (type : NodeType) : terrain.isOf type a = other.isOf type b := by
  rw [Terrain.isOf, Terrain.isOf, similar.type? relates]

theorem isUnknown : terrain.isUnknown a = other.isUnknown b := by
  rw [Terrain.isUnknown, Terrain.isUnknown, similar.type? relates, similar.isSome_inner relates]

theorem walks (comments : Bool) (name : SlotName) :
    terrain.walks comments a name = other.walks comments b name := by
  cases name with
  | index position => rfl
  | key key =>
    have present := similar.isSome_inner relates (.key "type")
    rw [Terrain.walks, Terrain.walks, similar.type? relates, ← Option.not_isSome,
      ← Option.not_isSome, present]

/-- A walk comes along the same paths to related places. -/
theorem reaches {comments : Bool} {path : List SlotName} {part : α}
    (reached : terrain.Reaches comments a path part) :
    ∃ place, other.Reaches comments b path place ∧ related part place := by
  induction reached generalizing b with
  | here place => exact ⟨b, .here b, relates⟩
  | @step _ _ _ name _ walked entry _ ih =>
    rw [similar.walks relates] at walked
    rcases inner_cases (similar.inner relates name) with ⟨gone, _⟩ | ⟨_, _, here, there, inner⟩
    · rw [gone] at entry
      cases entry
    · cases here.symm.trans entry
      obtain ⟨place, onward, relatesThere⟩ := ih inner
      exact ⟨place, .step walked there onward, relatesThere⟩

theorem lacks_of (type : NodeType) (lacks : terrain.Lacks type a) : other.Lacks type b := by
  intro path part reached below
  obtain ⟨place, reachedThere, relatesThere⟩ := similar.symm.reaches relates reached
  rw [← similar.isOf relatesThere]
  exact lacks path place reachedThere below

theorem lacks (type : NodeType) : terrain.Lacks type a ↔ other.Lacks type b :=
  ⟨similar.lacks_of relates type, similar.symm.lacks_of relates type⟩

end Similar

end Terrain

/-! ### Documents and stores -/

namespace Document

/-- What stands in a slot. Of a repeated key the last occurrence counts. -/
def inner? : Document → SlotName → Option Document
  | array items, .index position => items[position]?
  | object members, .key key => (Assoc.ofList members).get? key
  | _, _ => none

def text? : Document → Option String
  | text characters => some characters
  | _ => none

def terrain : Terrain Document := ⟨inner?, text?⟩

end Document

namespace Store

def terrain (store : Store) : Terrain Value := ⟨store.inner?, Value.text?⟩

variable (store : Store) (value : Value)

theorem type?_terrain : store.terrain.type? value = store.type? value := by
  show ((store.inner? value (.key "type")).bind Value.text?).bind _ =
    (store.member value "type").text?.bind _
  rw [member_eq_inner?]
  cases store.inner? value (.key "type") <;> rfl

theorem isOf_terrain (type : NodeType) : store.terrain.isOf type value = store.isOf type value := by
  rw [Terrain.isOf, type?_terrain, isOf]

end Store

end CodeTree
