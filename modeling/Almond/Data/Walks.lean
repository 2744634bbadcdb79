import Mathlib.Data.List.Nodup
import Mathlib.Data.List.Perm.Subperm
import Mathlib.Logic.Relation

/-! # Walks over trees

A walk keeps a stack of the nodes it still has to visit; a visit takes the top of the stack and pushes its children. Over a tree it
visits each node that can be reached from its root, and visits it once. -/

namespace Walks

variable {α : Type} {children : α → List α} {root v x : α} {visited stack : List α}

/-- What can be reached from the root. -/
def Reaches (children : α → List α) (root : α) : α → Prop :=
  Relation.ReflTransGen (fun v x => x ∈ children v) root

/-- The nodes below a root form a tree: no node lists a child twice or shares one with another, and the root is nobody's child. -/
structure Rooted (children : α → List α) (root : α) : Prop where
  nodup : ∀ v, (children v).Nodup
  parent : ∀ v w x, x ∈ children v → x ∈ children w → v = w
  root : ∀ v, Reaches children root v → root ∉ children v

/-- Two ways to list the same children reach the same nodes. -/
theorem reaches_congr {children' : α → List α} (hp : ∀ v, (children' v).Perm (children v)) :
    Reaches children' root x ↔ Reaches children root x := by
  have hrel : (fun v x => x ∈ children' v) = fun v x => x ∈ children v := by
    funext v x
    exact propext (hp v).mem_iff
  rw [Reaches, Reaches, hrel]

/-- The order of the children does not matter. -/
theorem Rooted.of_perm {children' : α → List α} (h : Rooted children root) (hp : ∀ v, (children' v).Perm (children v)) :
    Rooted children' root where
  nodup v := (hp v).nodup_iff.2 (h.nodup v)
  parent v w x hv hw := h.parent v w x ((hp v).mem_iff.1 hv) ((hp w).mem_iff.1 hw)
  root v hv hc := h.root v ((reaches_congr hp).1 hv) ((hp v).mem_iff.1 hc)

/-- Leaving children out leaves a tree. -/
theorem Rooted.of_sublist {children' : α → List α} (h : Rooted children root) (hs : ∀ v, (children' v).Sublist (children v)) :
    Rooted children' root where
  nodup v := (h.nodup v).sublist (hs v)
  parent v w x hv hw := h.parent v w x ((hs v).subset hv) ((hs w).subset hw)
  root v hv hc := h.root v (Relation.ReflTransGen.mono (fun w _ hx => (hs w).subset hx) _ _ hv) ((hs v).subset hc)

/-- A walk with the nodes it has visited and those it still has to visit. -/
structure Walk (children : α → List α) (root : α) (visited stack : List α) : Prop where
  nodup : (visited ++ stack).Nodup
  /-- What was met is the root or the child of a node that was visited. -/
  met : ∀ x ∈ visited ++ stack, x = root ∨ ∃ v ∈ visited, x ∈ children v
  reaches : ∀ x ∈ visited ++ stack, Reaches children root x
  root : root ∈ visited ++ stack
  /-- The children of a visited node were met. -/
  closed : ∀ v ∈ visited, ∀ x ∈ children v, x ∈ visited ++ stack

namespace Walk

/-- A walk begins with its root. -/
theorem start : Walk children root [] [root] where
  nodup := List.nodup_singleton root
  met _ hx := .inl (List.mem_singleton.1 hx)
  reaches _ hx := List.mem_singleton.1 hx ▸ .refl
  root := List.mem_singleton_self root
  closed _ hv := nomatch hv

/-- A visit takes the top of the stack and pushes its children. -/
theorem step (ht : Rooted children root) (h : Walk children root visited (v :: stack)) :
    Walk children root (v :: visited) ((children v).reverse ++ stack) := by
  have hmem : ∀ x, x ∈ v :: visited ++ ((children v).reverse ++ stack) ↔ x ∈ visited ++ v :: stack ∨ x ∈ children v := by
    intro x
    simp only [List.mem_append, List.mem_cons, List.mem_reverse]
    tauto
  have hv : v ∈ visited ++ v :: stack := List.mem_append_right _ List.mem_cons_self
  have hreach : Reaches children root v := h.reaches v hv
  -- A child of `v` is new: it is not the root, and no other node that was visited has it.
  have hnew : ∀ x ∈ children v, x ∉ visited ++ v :: stack := by
    intro x hx hm
    rcases h.met x hm with rfl | ⟨w, hw, hxw⟩
    · exact ht.root v hreach hx
    · obtain rfl := ht.parent v w x hx hxw
      exact (List.nodup_append'.1 h.nodup).2.2 hw List.mem_cons_self
  refine ⟨?_, fun x hx => ?_, fun x hx => ?_, ?_, fun w hw x hx => ?_⟩
  · have hrest : (visited ++ ((children v).reverse ++ stack)).Perm ((visited ++ stack) ++ (children v).reverse) := by
      rw [List.append_assoc]
      exact List.perm_append_comm.append_left visited
    have hperm : (v :: visited ++ ((children v).reverse ++ stack)).Perm ((visited ++ v :: stack) ++ (children v).reverse) :=
      (hrest.cons v).trans (List.perm_middle.append_right _).symm
    refine hperm.nodup_iff.2 (List.nodup_append'.2 ⟨h.nodup, List.nodup_reverse.2 (ht.nodup v), fun x hx hc => ?_⟩)
    exact hnew x (List.mem_reverse.1 hc) hx
  · rcases (hmem x).1 hx with hx | hx
    · rcases h.met x hx with rfl | ⟨w, hw, hxw⟩
      · exact .inl rfl
      · exact .inr ⟨w, List.mem_cons_of_mem v hw, hxw⟩
    · exact .inr ⟨v, List.mem_cons_self, hx⟩
  · rcases (hmem x).1 hx with hx | hx
    · exact h.reaches x hx
    · exact hreach.tail hx
  · exact (hmem root).2 (.inl h.root)
  · rcases List.mem_cons.1 hw with rfl | hw
    · exact (hmem x).2 (.inr hx)
    · exact (hmem x).2 (.inl (h.closed w hw x hx))

/-- What is left to visit may be in any order. -/
theorem of_perm {stack' : List α} (h : Walk children root visited stack) (hp : stack'.Perm stack) :
    Walk children root visited stack' := by
  have hmem : ∀ x, x ∈ visited ++ stack' ↔ x ∈ visited ++ stack := fun x => (hp.append_left visited).mem_iff
  exact ⟨(hp.append_left visited).nodup_iff.2 h.nodup, fun x hx => h.met x ((hmem x).1 hx), fun x hx => h.reaches x ((hmem x).1 hx),
    (hmem root).2 h.root, fun v hv x hx => (hmem x).2 (h.closed v hv x hx)⟩

/-- A walk that has nothing left to visit has visited all that can be reached. -/
theorem mem_iff (h : Walk children root visited []) : x ∈ visited ↔ Reaches children root x := by
  have hclosed : ∀ v ∈ visited, ∀ x ∈ children v, x ∈ visited := by simpa using h.closed
  refine ⟨fun hx => h.reaches x (by simpa using hx), fun hx => ?_⟩
  induction hx with
  | refl => simpa using h.root
  | tail _ hc ih => exact hclosed _ ih _ hc

/-- A walk meets no more nodes than there are. -/
theorem length_le {all : List α} (hall : ∀ x, Reaches children root x → x ∈ all) (h : Walk children root visited stack) :
    visited.length + stack.length ≤ all.length := by
  rw [← List.length_append]
  exact (List.subperm_of_subset h.nodup fun x hx => hall x (h.reaches x hx)).length_le

end Walk

end Walks
