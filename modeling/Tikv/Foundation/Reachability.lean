import Mathlib.Logic.Relation

/-!
# Reachability, acyclicity and predecessor trees

Paths in a graph, given as a relation on its vertices. A graph stays acyclic when it loses edges
(`Acyclic.mono`), and when it gets an edge whose end does not reach its start
(`Acyclic.addEdge`). A set that is closed under the edges holds everything reachable from its
members (`not_reflTransGen_of_closed`).

A search that follows edges from a start vertex can note for each vertex it finds the one it came
from. `PredTree` says that such notes, newest first, form a tree of edges; going back along them
gives a path from the start (`PredTree.reachable`).
-/

namespace Tikv

open Relation

universe u

variable {α : Type u} {r r' : α → α → Prop} {a b : α}

/-- No vertex reaches itself along one or more edges. -/
def Acyclic (r : α → α → Prop) : Prop := ∀ a, ¬ TransGen r a a

theorem Acyclic.mono (h : Acyclic r) (hle : ∀ a b, r' a b → r a b) : Acyclic r' :=
  fun a ha => h a (TransGen.mono hle _ _ ha)

theorem Acyclic.of_empty (h : ∀ a b, ¬ r a b) : Acyclic r := by
  intro a ha
  obtain ⟨b, hb, -⟩ := TransGen.head'_iff.mp ha
  exact h a b hb

/-- A path in the graph with one more edge is a path in the graph, or passes the edge. -/
theorem transGen_addEdge {x y : α} (h : TransGen (fun x y => r x y ∨ x = a ∧ y = b) x y) :
    TransGen r x y ∨ ReflTransGen r x a ∧ ReflTransGen r b y := by
  induction h with
  | single hxy =>
    rcases hxy with hxy | ⟨rfl, rfl⟩
    · exact .inl (.single hxy)
    · exact .inr ⟨.refl, .refl⟩
  | tail _ hyz ih =>
    rcases hyz with hyz | ⟨rfl, rfl⟩
    · rcases ih with hxy | ⟨hxa, hby⟩
      · exact .inl (hxy.tail hyz)
      · exact .inr ⟨hxa, hby.tail hyz⟩
    · rcases ih with hxy | ⟨hxa, -⟩
      · exact .inr ⟨hxy.to_reflTransGen, .refl⟩
      · exact .inr ⟨hxa, .refl⟩

theorem Acyclic.addEdge (h : Acyclic r) (hba : ¬ ReflTransGen r b a) :
    Acyclic fun x y => r x y ∨ x = a ∧ y = b := by
  intro x hx
  rcases transGen_addEdge hx with hx | ⟨hxa, hbx⟩
  · exact h x hx
  · exact hba (hbx.trans hxa)

theorem not_reflTransGen_of_closed {S : α → Prop} (hS : ∀ a b, S a → r a b → S b) (ha : S a)
    (hb : ¬ S b) : ¬ ReflTransGen r a b := by
  intro hab
  induction hab with
  | refl => exact hb ha
  | @tail x y _ hxy ih => exact ih fun hx => hb (hS x y hx hxy)

/-! ### Predecessor trees -/

/-- The vertices found by a search from `start`, newest first, each with the vertex it was found
from; `root` stands for the predecessor of the start. -/
inductive PredTree (r : α → α → Prop) (start root : α) : List (α × α) → Prop
  | root : PredTree r start root [(start, root)]
  | push {p : List (α × α)} {x y : α} : PredTree r start root p → x ∈ p.map Prod.fst →
      y ∉ p.map Prod.fst → r x y → PredTree r start root ((y, x) :: p)

namespace PredTree

variable {start root : α} {p : List (α × α)}

section

variable (h : PredTree r start root p)
include h

theorem mono (hle : ∀ a b, r a b → r' a b) :
    PredTree r' start root p := by
  induction h with
  | root => exact .root
  | push _ hx hy hr ih => exact ih.push hx hy (hle _ _ hr)

theorem start_mem : start ∈ p.map Prod.fst := by
  induction h with
  | root => simp
  | push _ _ _ _ ih => exact List.mem_cons_of_mem _ ih

theorem lookup [BEq α] [LawfulBEq α] (hab : (a, b) ∈ p) :
    p.lookup a = some b := by
  induction h with
  | root =>
    obtain ⟨rfl, rfl⟩ : a = start ∧ b = root := by simpa using hab
    simp
  | @push p x y _ _ hy _ ih =>
    rcases List.mem_cons.mp hab with heq | hmem
    · obtain ⟨rfl, rfl⟩ := Prod.mk.inj heq
      simp
    · have hne : a ≠ y := by
        rintro rfl
        exact hy (List.mem_map.mpr ⟨(a, b), hmem, rfl⟩)
      rw [List.lookup_cons, beq_eq_false_iff_ne.mpr hne]
      exact ih hmem

theorem reachable (ha : a ∈ p.map Prod.fst) :
    ReflTransGen r start a := by
  induction h generalizing a with
  | root =>
    obtain rfl : a = start := by simpa using ha
    exact .refl
  | push _ hx _ hr ih =>
    rcases List.mem_cons.mp ha with rfl | ha
    · exact (ih hx).tail hr
    · exact ih ha

end

end PredTree

end Tikv
