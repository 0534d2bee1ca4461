/-
Grafts. A graft far down is a graft of a graft: the subtree in between is exchanged for one in
which the graft has been made. For an object this needs that no key occurs twice, or else the
graft would be made under every occurrence, and it is so in the trees of values. To put one tree
into the place of another is to graft it there.
-/

import CodeTree.Proofs.Pruning

namespace CodeTree

variable {old tree : Tree} {path : List SlotName} {slot : SlotName} {key : String}

namespace Entries

variable {α : Type}

/-- Under a key that occurs once stands what is found there. -/
theorem eq_of_lookup {value : α} {entries : List (String × α)}
    (distinct : (entries.map Prod.fst).Nodup) (found : lookup key entries = some value)
    {entry : String × α} (member : entry ∈ entries) (same : entry.1 = key) : entry.2 = value := by
  have inside : (key, entry.2) ∈ entries := same ▸ member
  rw [mem_iff_lookup distinct, found] at inside
  exact (Option.some.inj inside).symm

/-- Writing to a key that is present. -/
theorem put_of_mem {old value : α} {entries : List (String × α)}
    (distinct : (entries.map Prod.fst).Nodup) (found : lookup key entries = some old) :
    put key value entries =
      entries.map fun entry => if entry.1 = key then (entry.1, value) else entry := by
  induction entries with
  | nil => cases found
  | cons head rest ih =>
    obtain ⟨other, first⟩ := head
    rw [List.map_cons, List.nodup_cons] at distinct
    rw [put, List.map_cons]
    by_cases same : key = other
    · subst same
      have others : rest.map (fun entry => if entry.1 = key then (entry.1, value) else entry) =
          rest := by
        refine (List.map_congr_left fun entry member => ?_).trans (List.map_id rest)
        have apart : entry.1 ≠ key := fun equal =>
          distinct.1 (List.mem_map.mpr ⟨entry, member, equal⟩)
        rw [if_neg apart]
        rfl
      rw [if_pos rfl, others]
      simp
    · rw [lookup, if_neg same] at found
      rw [if_neg same, if_neg fun equal => same equal.symm, ih distinct.2 found]

end Entries

namespace Tree

/-- No key occurs twice in an object of a tree. -/
def Keyed (tree : Tree) : Prop :=
  ∀ path id members, tree.at? path = some (.object id members) → (members.map Prod.fst).Nodup

theorem Keyed.inner {tree next : Tree} {name : SlotName} (keyed : tree.Keyed)
    (entry : tree.inner? name = some next) : next.Keyed := by
  intro path id members there
  refine keyed (name :: path) id members ?_
  rw [at?, entry, Option.bind_some, there]

theorem Keyed.part {part : Tree} (keyed : tree.Keyed) (there : tree.at? path = some part) :
    part.Keyed := by
  intro rest id members deeper
  refine keyed (path ++ rest) id members ?_
  rw [at?_append, there, Option.bind_some, deeper]

theorem Keyed.mk (top : ∀ id members, tree = .object id members → (members.map Prod.fst).Nodup)
    (inner : ∀ name next, tree.inner? name = some next → next.Keyed) : tree.Keyed := by
  intro path id members there
  cases path with
  | nil => exact top id members (Option.some.inj there)
  | cons name rest =>
    obtain ⟨next, entry, onward⟩ := Option.bind_eq_some_iff.mp there
    exact inner name next entry rest id members onward

/-- A graft brings in no other keys than those of the new subtree. -/
theorem Keyed.graft {new : Tree} (keyed : tree.Keyed) (keyedNew : new.Keyed) (path : List SlotName) :
    (tree.graft path new).Keyed := by
  induction path generalizing tree with
  | nil =>
    rw [Tree.graft]
    exact keyedNew
  | cons name rest ih =>
    refine .mk ?_ ?_
    · intro id members equal
      cases tree with
      | leaf value => cases name <;> cases equal
      | array own items => cases name <;> cases equal
      | object own entries =>
        have distinct := keyed [] own entries rfl
        cases name with
        | index position =>
          cases equal
          exact distinct
        | key characters =>
          cases equal
          rw [List.map_map]
          refine (List.map_congr_left fun entry _ => ?_).symm ▸ distinct
          show (if entry.1 = characters then _ else entry).1 = entry.1
          split <;> rfl
    · intro other next entry
      rw [inner?_graft] at entry
      split at entry
      · obtain ⟨old, stood, rfl⟩ := Option.map_eq_some_iff.mp entry
        exact ih (keyed.inner stood)
      · exact keyed.inner entry

theorem Keyed.drop {id : CompositeId} {members : List (String × Tree)}
    (keyed : (object id members).Keyed) (key : String) :
    (object id (Entries.drop key members)).Keyed := by
  refine .mk ?_ ?_
  · rintro _ _ ⟨⟩
    exact Entries.nodup_keys_drop key members (keyed [] id members rfl)
  · intro name next entry
    cases name with
    | index position => cases entry
    | key characters =>
      have entry : Entries.lookup characters (Entries.drop key members) = some next := entry
      rw [Entries.lookup_drop] at entry
      split at entry
      · cases entry
      · have stood : (object id members).inner? (.key characters) = some next := entry
        exact keyed.inner stood

/-- A second graft at the same place undoes the first. -/
theorem graft_graft (tree : Tree) (path : List SlotName) (first second : Tree) :
    (tree.graft path first).graft path second = tree.graft path second := by
  induction path generalizing tree with
  | nil => rw [graft, graft]
  | cons name rest ih =>
    cases tree with
    | leaf value => cases name <;> rfl
    | array id items =>
      cases name with
      | key characters => rfl
      | index position =>
        refine congrArg (array id) (List.ext_getElem? fun place => ?_)
        rw [List.getElem?_modify, List.getElem?_modify, List.getElem?_modify]
        cases items[place]? with
        | none => rfl
        | some item => by_cases same : position = place <;> simp [same, ih]
    | object id members =>
      cases name with
      | index position => rfl
      | key characters =>
        refine congrArg (object id) ?_
        rw [List.map_map]
        refine List.map_congr_left fun member _ => ?_
        by_cases same : member.1 = characters <;> simp [same, ih]

/-- What stands at the place of a graft. -/
theorem at?_graft (there : tree.at? path = some old) (new : Tree) :
    (tree.graft path new).at? path = some new := by
  induction path generalizing tree with
  | nil => rw [graft, at?]
  | cons name rest ih =>
    obtain ⟨next, entry, onward⟩ := Option.bind_eq_some_iff.mp there
    rw [at?, inner?_graft, if_pos rfl, entry, Option.map_some, Option.bind_some, ih onward]

/-- A graft further down is a graft of a graft. -/
theorem graft_append {part : Tree} (keyed : tree.Keyed) (there : tree.at? path = some part)
    (rest : List SlotName) (new : Tree) :
    tree.graft (path ++ rest) new = tree.graft path (part.graft rest new) := by
  induction path generalizing tree with
  | nil =>
    cases there
    rw [List.nil_append, graft]
  | cons name path ih =>
    obtain ⟨next, entry, onward⟩ := Option.bind_eq_some_iff.mp there
    have deeper := ih (keyed.inner entry) onward
    cases tree with
    | leaf value => cases entry
    | array id items =>
      cases name with
      | key characters => cases entry
      | index position =>
        refine congrArg (array id) (List.ext_getElem? fun place => ?_)
        rw [List.getElem?_modify, List.getElem?_modify]
        by_cases same : position = place
        · subst same
          have entry : items[position]? = some next := entry
          simp [entry, deeper]
        · simp [same]
    | object id members =>
      cases name with
      | index position => cases entry
      | key characters =>
        refine congrArg (object id) (List.map_congr_left fun member inside => ?_)
        by_cases same : member.1 = characters
        · rw [if_pos same, if_pos same,
            Entries.eq_of_lookup (keyed [] id members rfl) entry inside same]
          exact congrArg (Prod.mk member.1) deeper
        · rw [if_neg same, if_neg same]

/-- One tree in the place of what stood in a slot. -/
theorem exchangeSlot_single (keyed : tree.Keyed) (entry : tree.inner? slot = some old) (new : Tree) :
    tree.exchangeSlot slot [new] = tree.graft [slot] new := by
  cases tree with
  | leaf value => cases entry
  | array id items =>
    cases slot with
    | key characters => cases entry
    | index position =>
      have entry : items[position]? = some old := entry
      have inside := (List.getElem?_eq_some_iff.mp entry).1
      refine congrArg (array id) ?_
      rw [splice, List.modify_eq_take_cons_drop inside, graft, List.append_assoc,
        List.singleton_append]
  | object id members =>
    cases slot with
    | index position => cases entry
    | key characters =>
      refine congrArg (object id) ?_
      rw [Entries.put_of_mem (keyed [] id members rfl) entry]
      refine List.map_congr_left fun member _ => ?_
      rw [graft]

theorem exchange_single {front : List SlotName} (keyed : tree.Keyed)
    (there : tree.at? (front ++ [slot]) = some old) (new : Tree) :
    tree.exchange front slot [new] = tree.graft (front ++ [slot]) new := by
  obtain ⟨holder, reached, entry⟩ := at?_concat.mp there
  rw [exchange, reached, Option.elim, exchangeSlot_single (keyed.part reached) entry,
    graft_append keyed reached]

end Tree

/-- The objects of the tree of a value have the keys of the objects in the store. -/
theorem Store.keyed_tree {store : Store} {value : Value} (unshared : store.Unshared value) :
    (store.tree value).Keyed := by
  intro path id members there
  rw [at?_tree unshared] at there
  obtain ⟨part, reached, tree⟩ := Option.map_eq_some_iff.mp there
  have simple : store.Unshared part := Unshared.part unshared reached
  cases present : store.contents? part with
  | none =>
    rw [tree_of_none present] at tree
    cases tree
  | some contents =>
    obtain ⟨own, rfl⟩ := exists_id_of_contents? present
    rw [tree_of_some simple present] at tree
    cases contents with
    | array items => cases tree
    | object entries =>
      cases tree
      rw [List.map_map]
      exact entries.distinct

end CodeTree
