/-
Trees that stand for others. When a subtree of a tree is exchanged, everything around it sees
something else in one of its slots. If the new subtree can stand for the old one, a statement
around it is as stable as before, and the surroundings can stand for what they were in turn. So
an exchange far down concerns only what stands at its place and the slot just above.
-/

import CodeTree.Proofs.Outlooks

namespace CodeTree

variable {new node old part : Tree} {path : List SlotName} {type : NodeType} {name : SlotName}
  {key : String}

namespace Tree

/-! ### Trees that can stand for others -/

/-- One tree can stand for another in the eyes of everything around it. -/
abbrev Passes (type : NodeType) (old new : Tree) : Prop :=
  Outlook.StandsIn outlook outlook type old new

theorem resembles_of_value {after : Tree} (value : after.value = node.value)
    (isOf : ∀ own, outlook.isOf own after = outlook.isOf own node) :
    Outlook.Resembles outlook outlook type node after := by
  refine Outlook.resembles_of_same isOf ?_ ?_ (congrArg Value.isInfinite value)
  · show after.isNull = node.isNull
    rw [isNull, isNull, value]
  · show after.text? = node.text?
    rw [text?, text?, value]

/-- A node has become another by the exchange of one subtree. -/
structure Swaps (name : SlotName) (new node after : Tree) : Prop where
  value : after.value = node.value
  inner : ∀ other, after.inner? other = if other = name then some new else node.inner? other

section Swapped

variable {strict : Prop} {after : Tree} (entry : node.inner? name = some old)
  (swaps : Swaps name new node after)

theorem Swaps.inner_cases (swaps : Swaps name new node after) {other : SlotName}
    (there : after.inner? other = some part) :
    (other = name ∧ part = new) ∨ (other ≠ name ∧ node.inner? other = some part) := by
  rw [swaps.inner] at there
  split at there
  · rename_i same
    exact .inl ⟨same, (Option.some.inj there).symm⟩
  · rename_i different
    exact .inr ⟨different, there⟩

include entry swaps

theorem type?_swapped (text : new.text? = old.text?) : after.type? = node.type? := by
  have same : (after.member "type").text? = (node.member "type").text? := by
    rw [member, member, swaps.inner]
    split
    · rename_i named
      rw [named, entry, Option.getD_some, Option.getD_some, text]
    · rfl
  rw [type?, type?, same]

/-- What is in the slots is what was there, but for the subtree. -/
theorem Swaps.follows (text : new.text? = old.text?) : Outlook.Follows outlook outlook type
    (fun was part => was = part ∨ was = old ∧ part = new) (fun _ => False) node after where
  isOf own := by rw [isOf_outlook, isOf_outlook, isOf, isOf, type?_swapped entry swaps text]
  kept {key was} stood := by
    refine .inr ?_
    show ∃ part, after.inner? (.key key) = some part ∧ _
    rw [swaps.inner]
    by_cases same : SlotName.key key = name
    · rw [same] at stood
      cases entry.symm.trans stood
      exact ⟨new, if_pos same, .inr ⟨rfl, rfl⟩⟩
    · exact ⟨was, (if_neg same).trans stood, .inl rfl⟩
  gone := False.elim
  items {position item} there := by
    rcases swaps.inner_cases there with ⟨rfl, rfl⟩ | ⟨_, stood⟩
    · exact ⟨position, old, entry, .inr ⟨rfl, rfl⟩⟩
    · exact ⟨position, item, stood, .inl rfl⟩

variable (passes : Passes type old new)

include passes

theorem Passes.swapped : Passes type node after := by
  have follows : Outlook.Follows outlook outlook type _ _ node after :=
    swaps.follows entry passes.text
  refine follows.standsIn (resembles_of_value swaps.value follows.isOf) ?_
  rintro was _ (rfl | ⟨rfl, rfl⟩)
  · exact (Outlook.StandsIn.refl was).toResembles
  · exact passes.toResembles

theorem firm_swapped (firm : outlook.Firm type strict node) : outlook.Firm type strict after := by
  refine (swaps.follows entry passes.text).firm ?_ (fun {key part} there => .inl ?_) firm
  · rintro was _ (rfl | ⟨rfl, rfl⟩)
    · exact .refl was
    · exact passes
  · rcases swaps.inner_cases there with ⟨rfl, rfl⟩ | ⟨_, stood⟩
    · exact ⟨old, entry, .inr ⟨rfl, rfl⟩⟩
    · exact ⟨part, stood, .inl rfl⟩

theorem whole_swapped (empty : node.isOf .variableDeclaration = true → name = .key "declarations" →
      new.isEmpty = true → old.isEmpty = true) (firm : outlook.Firm type strict node)
    (whole : outlook.Whole strict node) : outlook.Whole strict after := by
  refine (swaps.follows entry passes.text).whole False.elim ?_ ?_ firm whole
  · rintro _ was _ _ (rfl | ⟨rfl, rfl⟩) _ nothing
    · exact nothing
    · exact passes.null.symm.trans nothing
  · intro declares list part stood there _ nothing
    rw [isOf_outlook] at declares
    rcases swaps.inner_cases there with ⟨rfl, rfl⟩ | ⟨_, same⟩
    · cases entry.symm.trans stood
      exact empty declares rfl nothing
    · cases same.symm.trans stood
      exact nothing

end Swapped

/-! ### Grafts -/

section Grafted

variable {strict : Prop} {rest : List SlotName}

theorem swaps_graft {next : Tree} (entry : node.inner? name = some next) (rest : List SlotName)
    (new : Tree) : Swaps name (next.graft rest new) node (node.graft (name :: rest) new) where
  value := value_graft node name rest new
  inner other := by rw [inner?_graft, entry, Option.map_some]

variable (passes : Passes type old new)

include passes

/-- What stands around a graft can stand for what was there. -/
theorem Passes.graft (there : node.at? path = some old) :
    Passes type node (node.graft path new) := by
  induction path generalizing node with
  | nil =>
    cases there
    rw [Tree.graft]
    exact passes
  | cons name rest ih =>
    obtain ⟨next, entry, onward⟩ := Option.bind_eq_some_iff.mp there
    exact (ih onward).swapped entry (swaps_graft entry rest new)

theorem firm_graft (there : node.at? (name :: rest) = some old)
    (firm : outlook.Firm type strict node) :
    outlook.Firm type strict (node.graft (name :: rest) new) := by
  obtain ⟨next, entry, onward⟩ := Option.bind_eq_some_iff.mp there
  exact firm_swapped entry (swaps_graft entry rest new) (passes.graft onward) firm

theorem whole_graft (there : node.at? (name :: rest) = some old)
    (empty : node.isOf .variableDeclaration = true → name = .key "declarations" → rest = [] →
      new.isEmpty = true → old.isEmpty = true) (firm : outlook.Firm type strict node)
    (whole : outlook.Whole strict node) : outlook.Whole strict (node.graft (name :: rest) new) := by
  obtain ⟨next, entry, onward⟩ := Option.bind_eq_some_iff.mp there
  refine whole_swapped entry (swaps_graft entry rest new) (passes.graft onward) ?_ firm whole
  intro declares named nothing
  cases rest with
  | nil =>
    cases onward
    rw [Tree.graft] at nothing
    exact empty declares named rfl nothing
  | cons step beyond =>
    -- There is something left where the graft goes through.
    obtain ⟨further, element, _⟩ := Option.bind_eq_some_iff.mp onward
    have stands := (swaps_graft element beyond new).inner step
    rw [if_pos rfl] at stands
    generalize next.graft (step :: beyond) new = grafted at nothing stands
    cases grafted with
    | array id items =>
      cases items with
      | nil => cases step <;> cases stands
      | cons item others => cases nothing
    | _ => cases nothing

end Grafted

/-- What stands in a tree after a graft: a part of the new subtree, something around it, or what
stood there before. -/
theorem at?_graft_cases {tree : Tree} {place : List SlotName} (there : tree.at? path = some old)
    (found : (tree.graft path new).at? place = some part) :
    (∃ rest, place = path ++ rest ∧ new.at? rest = some part) ∨
    (∃ name rest node, path = place ++ name :: rest ∧ tree.at? place = some node ∧
      node.at? (name :: rest) = some old ∧ part = node.graft (name :: rest) new) ∨
    (tree.at? place = some part ∧ ¬path <+: place) := by
  induction path generalizing tree place with
  | nil =>
    rw [graft] at found
    exact .inl ⟨place, rfl, found⟩
  | cons name rest ih =>
    cases place with
    | nil =>
      cases found
      exact .inr (.inl ⟨name, rest, tree, rfl, rfl, there, rfl⟩)
    | cons step beyond =>
      obtain ⟨next, entry, onward⟩ := Option.bind_eq_some_iff.mp there
      obtain ⟨after, stands, further⟩ := Option.bind_eq_some_iff.mp found
      rcases (swaps_graft entry rest new).inner_cases stands with ⟨rfl, rfl⟩ | ⟨different, stood⟩
      · rcases ih onward further with
          ⟨deeper, rfl, inside⟩ | ⟨slot, below, node, rfl, reached, above, rfl⟩ | ⟨same, apart⟩
        · exact .inl ⟨deeper, rfl, inside⟩
        · refine .inr (.inl ⟨slot, below, node, rfl, ?_, above, rfl⟩)
          rw [at?, entry, Option.bind_some, reached]
        · refine .inr (.inr ⟨?_, fun leads => apart (List.cons_prefix_cons.mp leads).2⟩)
          rw [at?, entry, Option.bind_some, same]
      · refine .inr (.inr ⟨?_, fun leads => different (List.cons_prefix_cons.mp leads).1.symm⟩)
        rw [at?, stood, Option.bind_some, further]

end Tree

end CodeTree
