/-
Which handler a type is given to. In a lineage each type stands before all that it derives from. So
the first declared type along a lineage is a most specific one, and one more declared type changes
nothing but what it takes for itself.
-/

import CodeTree.Proofs.Lineages
import CodeTree.Visitor.Basic
import Mathlib.Data.Fintype.EquivFin

namespace CodeTree

namespace Lineage

variable {α : Type} {bases : α → List α} {start : α} {lineage : List α}

/-- What derives from a type stands before it. -/
theorem IsLineage.mem_front {front back : List α} {type other : α}
    (isLineage : IsLineage bases start (front ++ type :: back))
    (member : other ∈ front ++ type :: back) (above : DerivesStrictly bases other type) :
    other ∈ front := by
  have once : type ∉ back :=
    (List.nodup_cons.mp (List.nodup_append.mp isLineage.nodup).2.1).1
  obtain ⟨early, late, split, before, behind⟩ :=
    List.sublist_append_iff.mp (isLineage.before other member type above)
  cases early with
  | nil =>
    rw [← List.nil_append late, ← split] at behind
    rcases List.cons_sublist_cons'.mp behind with later | ⟨_, later⟩
    · exact absurd (later.subset (by simp)) once
    · exact absurd (later.subset (by simp)) once
  | cons head rest =>
    obtain rfl : other = head := (List.cons.inj split).1
    exact before.subset List.mem_cons_self

/-- The first declared type along a lineage has no declared type below it. -/
theorem IsLineage.find?_most_specific (isLineage : IsLineage bases start lineage)
    {declared : α → Bool} {found : α} (first : lineage.find? declared = some found) :
    declared found = true ∧ Derives bases start found ∧
      ∀ other, declared other = true → Derives bases start other →
        ¬ DerivesStrictly bases other found := by
  obtain ⟨holds, front, back, rfl, undeclared⟩ := List.find?_eq_some_iff_append.mp first
  refine ⟨holds, (isLineage.mem_iff _).mp (by simp), ?_⟩
  intro other declares derives between
  have inside := isLineage.mem_front ((isLineage.mem_iff other).mpr derives) between
  have missing := undeclared other inside
  rw [declares] at missing
  cases missing

/-- One more declared type is found first, or changes nothing. -/
theorem find?_or_eq [DecidableEq α] (declared : α → Bool) (added : α) (list : List α) :
    list.find? (fun type => declared type || type == added) = list.find? declared ∨
      added ∈ list ∧ list.find? (fun type => declared type || type == added) = some added := by
  induction list with
  | nil => exact .inl rfl
  | cons head rest ih =>
    grind

end Lineage

theorem Assoc.mem_keys_insert {κ α : Type} [DecidableEq κ] {map : Assoc κ α} {key other : κ}
    {value : α} : other ∈ (map.insert key value).keys ↔ other ∈ map.keys ∨ other = key := by
  rw [keys, insert, Entries.keys_put]
  split
  · rename_i present
    exact ⟨.inl, fun member => member.elim id (· ▸ present)⟩
  · rw [List.mem_append, List.mem_singleton]
    rfl

namespace NodeType

open Lineage

/-- A type has a longer lineage than its bases. -/
theorem acyclic_bases : Acyclic bases := by
  refine acyclic_of_measure (fun type => type.supertypes.length) fun type => ?_
  have shorter : ∀ type ∈ all, ∀ base ∈ bases type,
      base.supertypes.length < type.supertypes.length := by decide +kernel
  exact shorter type (mem_all type)

/-- With one more candidate, the nearest is that one or remains. -/
theorem nearest?_of_adds {candidates more : List NodeType} {added : NodeType}
    (adds : ∀ type, type ∈ more ↔ type ∈ candidates ∨ type = added) {type : NodeType}
    (changes : nearest? more type ≠ nearest? candidates type) :
    Derives bases type added ∧ nearest? more type = some added := by
  have tests : (fun supertype => more.contains supertype) =
      fun supertype => candidates.contains supertype || supertype == added := by
    funext supertype
    rw [Bool.eq_iff_iff]
    simp [adds]
  rw [nearest?, nearest?, tests] at changes
  rw [nearest?, tests]
  rcases find?_or_eq (candidates.contains ·) added type.supertypes with same | ⟨member, first⟩
  · exact absurd same changes
  · exact ⟨((isLineage_supertypes type).mem_iff added).mp member, first⟩

end NodeType

namespace Visitor

open Lineage

variable {H : Type}

/-- In a finite table of bases without cycles the list of a type comes to its end, and what remains
of it is the lineage of the type, however many more entries might be scanned. The vocabulary is such
a table. A type is resolved if one of its supertypes is declared; it then goes to one that has no
declared type below it, and a declared type that is added takes over types that derive from it and
changes no other. -/
theorem resolves_most_specific {α : Type} [Finite α] [DecidableEq α] (bases : α → List α)
    (acyclic : Acyclic bases) (start : α) (visitor : Visitor H) (type : NodeType) :
    (∃ turns lineage, IsLineage bases start lineage ∧
        ∀ limit, turns ≤ limit → linearize bases limit start = some lineage) ∧
      Acyclic NodeType.bases ∧
      linearize NodeType.bases NodeType.all.length type = some type.supertypes ∧
      IsLineage NodeType.bases type type.supertypes ∧
      ((visitor.resolve? type).isSome ↔
        ∃ declared ∈ visitor.handlers.keys, Derives NodeType.bases type declared) ∧
      (∀ declared, visitor.resolve? type = some declared →
        declared ∈ visitor.handlers.keys ∧ Derives NodeType.bases type declared ∧
          ∀ other ∈ visitor.handlers.keys, Derives NodeType.bases type other →
            ¬ DerivesStrictly NodeType.bases other declared) ∧
      ∀ added handler,
        let extended := { visitor with handlers := visitor.handlers.insert added handler }
        extended.resolve? type ≠ visitor.resolve? type →
          Derives NodeType.bases type added ∧ extended.resolve? type = some added := by
  have isLineage := NodeType.isLineage_supertypes type
  refine ⟨?_, NodeType.acyclic_bases, type.linearize_bases, isLineage, ?_, ?_, ?_⟩
  · obtain ⟨turns, lineage, ends⟩ := acyclic.linearize_ends start
    exact ⟨turns, lineage, isLineage_linearize (ends turns le_rfl), ends⟩
  · rw [resolve?, NodeType.nearest?, List.find?_isSome]
    simp only [List.contains_iff_mem, isLineage.mem_iff]
    exact exists_congr fun _ => and_comm
  · intro declared resolved
    obtain ⟨declares, derives, lowest⟩ := isLineage.find?_most_specific resolved
    exact ⟨List.contains_iff_mem.mp declares, derives,
      fun other member => lowest other (List.contains_iff_mem.mpr member)⟩
  · intro added handler extended changes
    exact NodeType.nearest?_of_adds (fun _ => Assoc.mem_keys_insert) changes

/-- A table with two routes from the first entry to the last and a direct one beside them. -/
def crossedRoutes : Fin 4 → List (Fin 4)
  | 0 => [3, 1, 2]
  | 1 => [3]
  | 2 => [3]
  | 3 => []

/-- The shared ancestor comes last, although it is a direct base of the first entry. An identifier
goes to the handler of expressions rather than to that of nodes, which is declared first. -/
theorem resolves_crossedRoutes :
    Acyclic crossedRoutes ∧ linearize crossedRoutes 6 0 = some [0, 1, 2, 3] ∧
      IsLineage crossedRoutes 0 [0, 1, 2, 3] ∧
      (ofHandlers [(.node, ()), (.expression, ())]).resolve? .identifier = some .expression ∧
      ¬ DerivesStrictly NodeType.bases .node .expression := by
  have acyclic : Acyclic crossedRoutes := acyclic_of_measure (fun entry => 4 - entry.val) (by decide)
  have resolved : (ofHandlers [(.node, ()), (.expression, ())]).resolve? .identifier =
      some .expression := by decide
  obtain ⟨⟨turns, lineage, isLineage, ends⟩, _, _, _, _, specific, _⟩ :=
    resolves_most_specific crossedRoutes acyclic 0 (ofHandlers [(.node, ()), (.expression, ())])
      .identifier
  have listed : linearize crossedRoutes 6 0 = some [0, 1, 2, 3] := by decide
  have same := (ends _ (le_max_left turns 6)).symm.trans
    (Worklist.scan_mono listed (le_max_right turns 6))
  refine ⟨acyclic, listed, Option.some.inj same ▸ isLineage, resolved, ?_⟩
  refine (specific _ resolved).2.2 .node (by decide) ?_
  exact ((NodeType.isLineage_supertypes _).mem_iff _).mp (by decide)

end Visitor

end CodeTree
