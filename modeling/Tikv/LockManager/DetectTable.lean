import Mathlib.Data.List.Chain
import Tikv.Foundation.Execution
import Tikv.Foundation.Reachability
import Tikv.LockManager.Deadlock

/-!
# Deadlock detection is exact

The graph of the edges in the detect table, expired or not, is acyclic in every reachable state.
A search follows the edges that have not expired and removes the others from the vertices it
visits. If it does not find the waiting transaction, then the vertices it has found are closed
under all the edges that are left, so the new edge closes no cycle, not even one of expired edges
that a later request could refresh.

The search is right because its map of predecessors is a tree of edges (`PredTree`), every vertex
of which is on the stack or has all its edges inside of the tree (`Search`).
-/

namespace Tikv.Deadlock

open Relation List Option WaitForMap AssocMap DetectTable WaitForEntry

/-! ### Edges -/

namespace WaitForMap

variable {m m' m'' : WaitForMap} {now ttl u u' v : ℕ} {l : Locks}

theorem edge_eq_some_iff :
    m.edge u v = some l ↔ ∃ waitFor, m.lookup u = some waitFor ∧ waitFor.lookup v = some l :=
  bind_eq_some_iff

theorem edge_insert (m : WaitForMap) (k : ℕ) (waitFor : WaitFor) (u v : ℕ) :
    edge (m.insert k waitFor) u v = if u = k then waitFor.lookup v else m.edge u v := by
  rw [edge, lookup_insert]
  split <;> rfl

theorem edge_erase (m : WaitForMap) (k u v : ℕ) :
    edge (m.erase k) u v = if u = k then none else m.edge u v := by
  rw [edge, lookup_erase]
  split <;> rfl

theorem edge_of_edge_erase (h : edge (m.erase u') u v = some l) : m.edge u v = some l := by
  rw [edge_erase] at h
  split_ifs at h
  exact h

theorem edge_of_edge_insert {waitFor kept : WaitFor} (hu : m.lookup u' = some waitFor)
    (hkept : ∀ {v l}, kept.lookup v = some l → waitFor.lookup v = some l)
    (h : edge (m.insert u' kept) u v = some l) : m.edge u v = some l := by
  rw [edge_insert] at h
  split_ifs at h with hx
  · subst hx
    exact edge_eq_some_iff.mpr ⟨waitFor, hu, hkept h⟩
  · exact h

/-- There is an edge that has not expired. -/
def Live (m : WaitForMap) (now ttl u v : ℕ) : Prop :=
  ∃ l, m.edge u v = some l ∧ l.isExpired now ttl = false

/-- There is an edge. -/
def Edge (m : WaitForMap) (u v : ℕ) : Prop := ∃ l, m.edge u v = some l

theorem Live.edge (h : m.Live now ttl u v) : m.Edge u v := by
  obtain ⟨l, hl, -⟩ := h
  exact ⟨l, hl⟩

/-- The second table has lost expired edges only. -/
structure Pruned (now ttl : ℕ) (m m' : WaitForMap) : Prop where
  sub : ∀ {u v l}, m'.edge u v = some l → m.edge u v = some l
  live : ∀ {u v l}, m.edge u v = some l → l.isExpired now ttl = false → m'.edge u v = some l

theorem Pruned.refl : Pruned now ttl m m := ⟨id, fun h _ => h⟩

theorem Pruned.trans (h : Pruned now ttl m m') (h' : Pruned now ttl m' m'') :
    Pruned now ttl m m'' :=
  ⟨fun he => h.sub (h'.sub he), fun he hl => h'.live (h.live he hl) hl⟩

theorem Pruned.live_iff (h : Pruned now ttl m m') : m'.Live now ttl u v ↔ m.Live now ttl u v := by
  constructor
  · rintro ⟨l, hl, hexp⟩
    exact ⟨l, h.sub hl, hexp⟩
  · rintro ⟨l, hl, hexp⟩
    exact ⟨l, h.live hl hexp, hexp⟩

theorem pruned_insert (now ttl : ℕ) {waitFor : WaitFor} (hu : m.lookup u = some waitFor) :
    Pruned now ttl m
      (m.insert u (retain waitFor fun locks => !locks.isExpired now ttl)) where
  sub := edge_of_edge_insert hu fun h => (lookup_retain_eq_some_iff.mp h).1
  live := by
    intro x y l hl hexp
    rw [edge_insert]
    split_ifs with hx
    · subst hx
      obtain ⟨w, hw, hly⟩ := edge_eq_some_iff.mp hl
      obtain rfl := some_injective _ (hu.symm.trans hw)
      exact lookup_retain_eq_some_iff.mpr ⟨hly, by rw [hexp]; rfl⟩
    · exact hl

theorem pruned_erase {waitFor : WaitFor} (hu : m.lookup u = some waitFor)
    (hempty : (retain waitFor fun locks => !locks.isExpired now ttl).entries.isEmpty) :
    Pruned now ttl m (m.erase u) where
  sub := edge_of_edge_erase
  live := by
    intro x y l hl hexp
    have hx : x ≠ u := by
      rintro rfl
      have hkept := (pruned_insert now ttl hu).live hl hexp
      rw [edge_insert, if_pos rfl, lookup_of_isEmpty hempty] at hkept
      cases hkept
    rw [edge_erase, if_neg hx]
    exact hl

/-- What holds of every table. -/
structure Ok (m : WaitForMap) : Prop where
  ts : ∀ {u v l}, m.edge u v = some l → l.ts = v
  keys : ∀ {u v l}, m.edge u v = some l → l.keys ≠ []
  ne_zero : ∀ {u v l}, m.edge u v = some l → u ≠ 0 ∧ v ≠ 0
  acyclic : Acyclic m.Edge

theorem Ok.of_sub (hm : m.Ok)
    (hsub : ∀ {u v l}, m'.edge u v = some l → m.edge u v = some l) : m'.Ok where
  ts := fun h => hm.ts (hsub h)
  keys := fun h => hm.keys (hsub h)
  ne_zero := fun h => hm.ne_zero (hsub h)
  acyclic := hm.acyclic.mono fun _ _ ⟨l, hl⟩ => ⟨l, hsub hl⟩

theorem edge_set (m : WaitForMap) (u v : ℕ) (l : Locks) (x y : ℕ) :
    edge (m.insert u (((m.lookup u).getD ∅).insert v l)) x y =
      if x = u ∧ y = v then some l else m.edge x y := by
  rw [edge_insert]
  by_cases hx : x = u
  · subst hx
    rw [if_pos rfl, lookup_insert]
    by_cases hy : y = v
    · simp [hy]
    · rw [if_neg hy, if_neg (fun h => hy h.2), edge]
      cases m.lookup x with
      | none | some waitFor => rfl
  · rw [if_neg hx, if_neg (fun h => hx h.1)]

/-- An edge can be set if it is there already, or if it closes no cycle. -/
theorem Ok.set (hm : m.Ok) (hts : l.ts = v) (hkeys : l.keys ≠ []) (hu : u ≠ 0) (hv : v ≠ 0)
    (hedge : m.Edge u v ∨ ¬ ReflTransGen m.Edge v u) :
    Ok (m.insert u (((m.lookup u).getD ∅).insert v l)) := by
  have hcases : ∀ {x y k}, edge (m.insert u (((m.lookup u).getD ∅).insert v l)) x y = some k →
      (x = u ∧ y = v) ∧ l = k ∨ m.edge x y = some k := by
    intro x y k hk
    rw [edge_set] at hk
    split_ifs at hk with hxy
    · exact .inl ⟨hxy, some_injective _ hk⟩
    · exact .inr hk
  constructor
  · intro x y k hk
    rcases hcases hk with ⟨⟨-, rfl⟩, rfl⟩ | hk
    · exact hts
    · exact hm.ts hk
  · intro x y k hk
    rcases hcases hk with ⟨-, rfl⟩ | hk
    · exact hkeys
    · exact hm.keys hk
  · intro x y k hk
    rcases hcases hk with ⟨⟨rfl, rfl⟩, -⟩ | hk
    · exact ⟨hu, hv⟩
    · exact hm.ne_zero hk
  · have hacyclic : Acyclic fun x y => m.Edge x y ∨ x = u ∧ y = v := by
      rcases hedge with hedge | hpath
      · apply hm.acyclic.mono
        rintro x y (hxy | ⟨rfl, rfl⟩)
        · exact hxy
        · exact hedge
      · exact hm.acyclic.addEdge hpath
    apply hacyclic.mono
    rintro x y ⟨k, hk⟩
    rcases hcases hk with ⟨hxy, -⟩ | hk
    · exact .inr hxy
    · exact .inl ⟨k, hk⟩

theorem Ok.toWaitForEntry (hm : m.Ok) (h : m.edge u v = some l) :
    ∃ e, l.toWaitForEntry u = .ok e ∧ e.txn = u ∧ e.waitForTxn = v := by
  cases hkeys : l.keys with
  | nil => exact absurd hkeys (hm.keys h)
  | cons p rest =>
    refine ⟨⟨u, l.ts, p.1, p.2, l.resourceGroupTag⟩, ?_, rfl, hm.ts h⟩
    rw [Locks.toWaitForEntry, hkeys]

end WaitForMap

/-! ### The edges of one vertex -/

section Visit

variable {txnTs currTs start : ℕ} {entries : List (Sigma fun _ : ℕ => Locks)}
  {stack stack' : List ℕ} {pushed pushed' : List (ℕ × ℕ)} {r : ℕ → ℕ → Prop} {locks : Locks}

/-- The vertices that can still be pushed. -/
def unseen (targets : List ℕ) (pushed : List (ℕ × ℕ)) : ℕ :=
  (targets.filter fun v => v ∉ pushed.map Prod.fst).length

/-- What is pushed is seen. -/
theorem unseen_push {targets : List ℕ} {x y : ℕ} (hx : x ∈ targets)
    (hnew : x ∉ pushed.map Prod.fst) :
    unseen targets ((x, y) :: pushed) < unseen targets pushed := by
  induction targets with
  | nil => exact absurd hx not_mem_nil
  | cons z rest ih =>
    have hle : unseen rest ((x, y) :: pushed) ≤ unseen rest pushed := by
      apply List.Sublist.length_le
      apply monotone_filter_right
      intro v hv
      simp only [map_cons, mem_cons, not_or, decide_eq_true_eq] at hv ⊢
      exact hv.2
    simp only [unseen] at ih hle ⊢
    by_cases hz : z = x
    · subst hz
      simp [hnew] at hle ⊢
      omega
    · have hrest := ih ((mem_cons.mp hx).resolve_left (Ne.symm hz))
      by_cases hzp : z ∈ pushed.map Prod.fst <;> simpa [hz, hzp] using hrest

/-- The vertices pushed for the edges of a vertex that has no edge to the goal. -/
structure Pushes (r : ℕ → ℕ → Prop) (start txnTs : ℕ) (targets : List ℕ)
    (stack : List ℕ) (pushed : List (ℕ × ℕ)) (stack' : List ℕ) (pushed' : List (ℕ × ℕ)) :
    Prop where
  tree : PredTree r start 0 pushed'
  mono : ∀ v ∈ pushed.map Prod.fst, v ∈ pushed'.map Prod.fst
  stack_mono : ∀ v ∈ stack, v ∈ stack'
  sound : ∀ v ∈ stack', v ∈ stack ∨ v ∈ pushed'.map Prod.fst
  fresh : ∀ v ∈ pushed'.map Prod.fst, v ∈ pushed.map Prod.fst ∨ v ∈ stack'
  goal : txnTs ∉ pushed.map Prod.fst → txnTs ∉ pushed'.map Prod.fst
  fuel : stack'.length + unseen targets pushed' ≤ stack.length + unseen targets pushed

theorem Pushes.refl {targets : List ℕ} (htree : PredTree r start 0 pushed) :
    Pushes r start txnTs targets stack pushed stack pushed :=
  ⟨htree, fun _ h => h, fun _ h => h, fun _ h => .inl h, fun _ h => .inl h, id, le_rfl⟩

/-- A pass that does not meet the transaction pushes all that was not pushed before. -/
theorem visit_done {targets : List ℕ} (h : visit txnTs currTs entries stack pushed =
    .done stack' pushed') (htree : PredTree r start 0 pushed) (hcurr : currTs ∈ pushed.map Prod.fst)
    (hr : ∀ e ∈ entries, r currTs e.1) (htargets : ∀ e ∈ entries, e.1 ∈ targets) :
    Pushes r start txnTs targets stack pushed stack' pushed' ∧
      ∀ e ∈ entries, e.1 ∈ pushed'.map Prod.fst := by
  fun_induction visit txnTs currTs entries stack pushed with
  | case1 stack pushed =>
    obtain ⟨rfl, rfl⟩ : stack = stack' ∧ pushed = pushed' := by simpa using h
    exact ⟨.refl htree, by simp⟩
  | case2 => cases h
  | case3 lockTs locks rest stack pushed hne hmem ih =>
    obtain ⟨hpushes, hall⟩ := ih h htree hcurr (fun e he => hr e (mem_cons_of_mem _ he))
      fun e he => htargets e (mem_cons_of_mem _ he)
    exact ⟨hpushes, forall_mem_cons.mpr ⟨hpushes.mono _ hmem, hall⟩⟩
  | case4 lockTs locks rest stack pushed hne hmem ih =>
    have hedge : r currTs lockTs := hr _ mem_cons_self
    have htarget : lockTs ∈ targets := htargets ⟨lockTs, locks⟩ mem_cons_self
    obtain ⟨hpushes, hall⟩ := ih h (htree.push hcurr hmem hedge) (mem_cons_of_mem _ hcurr)
      (fun e he => hr e (mem_cons_of_mem _ he))
      fun e he => htargets e (mem_cons_of_mem _ he)
    refine ⟨?_, forall_mem_cons.mpr ⟨hpushes.mono _ mem_cons_self, hall⟩⟩
    · constructor
      · exact hpushes.tree
      · intro v hv
        exact hpushes.mono v (mem_cons_of_mem _ hv)
      · intro v hv
        exact hpushes.stack_mono v (mem_cons_of_mem _ hv)
      · intro v hv
        rcases hpushes.sound v hv with hv | hv
        · rcases mem_cons.mp hv with rfl | hv
          · exact .inr (hpushes.mono _ mem_cons_self)
          · exact .inl hv
        · exact .inr hv
      · intro v hv
        rcases hpushes.fresh v hv with hv | hv
        · rcases mem_cons.mp hv with rfl | hv
          · exact .inr (hpushes.stack_mono _ mem_cons_self)
          · exact .inl hv
        · exact .inr hv
      · intro hgoal
        apply hpushes.goal
        intro hmem
        rcases mem_cons.mp hmem with heq | hmem
        · exact hne heq.symm
        · exact hgoal hmem
      · have hless := unseen_push (y := currTs) htarget hmem
        have hfuel := hpushes.fuel
        simp only [length_cons] at hfuel
        omega

/-- A pass that ends early has met the transaction itself among the entries. -/
theorem visit_found (h : visit txnTs currTs entries stack pushed = .found locks pushed')
    (htree : PredTree r start 0 pushed) (hcurr : currTs ∈ pushed.map Prod.fst)
    (hr : ∀ e ∈ entries, r currTs e.1) :
    PredTree r start 0 pushed' ∧ currTs ∈ pushed'.map Prod.fst ∧ ⟨txnTs, locks⟩ ∈ entries := by
  fun_induction visit txnTs currTs entries stack pushed with
  | case1 => cases h
  | case2 locks rest stack pushed =>
    obtain ⟨rfl, rfl⟩ := Visit.found.inj h
    exact ⟨htree, hcurr, mem_cons_self⟩
  | case3 lockTs locks rest stack pushed hne hmem ih =>
    obtain ⟨htree', hcurr', hmem'⟩ :=
      ih h htree hcurr fun e he => hr e (mem_cons_of_mem _ he)
    exact ⟨htree', hcurr', mem_cons_of_mem _ hmem'⟩
  | case4 lockTs locks rest stack pushed hne hmem ih =>
    obtain ⟨htree', hcurr', hmem'⟩ := ih h (htree.push hcurr hmem (hr _ mem_cons_self))
      (mem_cons_of_mem _ hcurr) fun e he => hr e (mem_cons_of_mem _ he)
    exact ⟨htree', hcurr', mem_cons_of_mem _ hmem'⟩

end Visit

/-! ### Wait chains -/

/-- The entries of a path of edges. -/
inductive WaitChain (m : WaitForMap) (start : ℕ) : List WaitForEntry → ℕ → Prop
  | nil : WaitChain m start [] start
  | snoc {chain : List WaitForEntry} {u v : ℕ} {l : Locks} {e : WaitForEntry} :
      WaitChain m start chain u → m.edge u v = some l → l.toWaitForEntry u = .ok e →
      e.txn = u → e.waitForTxn = v → WaitChain m start (chain ++ [e]) v

section Chain

variable {m m' : WaitForMap} {start goal : ℕ} {chain : List WaitForEntry}

theorem WaitChain.mono (h : WaitChain m start chain goal)
    (hsub : ∀ {u v l}, m.edge u v = some l → m'.edge u v = some l) :
    WaitChain m' start chain goal := by
  induction h with
  | nil => exact .nil
  | snoc _ hl he htxn hwait ih => exact ih.snoc (hsub hl) he htxn hwait

/-- Going back along the predecessors gives the wait chain, and no step of it fails. -/
theorem waitChainLoop_eq {preds q : List (ℕ × ℕ)} (hm : m.Ok) (hstart : start ≠ 0)
    (htree : PredTree m.Edge start 0 q) (hlookup : ∀ e ∈ q, preds.lookup e.1 = some e.2) {y : ℕ}
    (hy : y ∈ q.map Prod.fst) {fuel : ℕ} (hfuel : q.length ≤ fuel) (acc : List WaitForEntry) :
    ∃ chain, WaitChain m start chain y ∧
      waitChainLoop m start preds fuel y acc = .ok (acc ++ chain.reverse) := by
  induction htree generalizing y fuel acc with
  | root =>
    obtain rfl : y = start := by simpa using hy
    obtain ⟨fuel, rfl⟩ : ∃ n, fuel = n + 1 := ⟨fuel - 1, by simp at hfuel; omega⟩
    refine ⟨[], .nil, ?_⟩
    simp [waitChainLoop, hlookup (y, 0) (by simp)]
  | @push q x v htree hx hv hedge ih =>
    have hlookup' : ∀ e ∈ q, preds.lookup e.1 = some e.2 :=
      fun e he => hlookup e (mem_cons_of_mem _ he)
    simp only [length_cons] at hfuel
    rcases mem_cons.mp hy with rfl | hy
    · obtain ⟨l, hl⟩ := hedge
      obtain ⟨e, he, htxn, hwait⟩ := hm.toWaitForEntry hl
      obtain ⟨fuel, rfl⟩ : ∃ n, fuel = n + 1 := ⟨fuel - 1, by omega⟩
      obtain ⟨chain, hchain, hloop⟩ := ih hlookup' hx (show q.length ≤ fuel by omega) (acc ++ [e])
      refine ⟨chain ++ [e], hchain.snoc hl he htxn hwait, ?_⟩
      rw [waitChainLoop, hlookup _ mem_cons_self]
      simp only [if_neg (hm.ne_zero hl).1, hl, he]
      change waitChainLoop m start preds fuel x (acc ++ [e]) = _
      rw [hloop]
      simp
    · exact ih hlookup' hy (by omega) acc

theorem generateWaitChain_eq {preds : List (ℕ × ℕ)} (hm : m.Ok) (hstart : start ≠ 0)
    (htree : PredTree m.Edge start 0 preds) {y : ℕ} (hy : y ∈ preds.map Prod.fst) :
    ∃ chain, WaitChain m start chain y ∧ generateWaitChain m start y preds = .ok chain := by
  obtain ⟨chain, hchain, hloop⟩ :=
    waitChainLoop_eq hm hstart htree (fun _ he => htree.lookup he) hy le_rfl []
  refine ⟨chain, hchain, ?_⟩
  rw [generateWaitChain, hloop]
  simp

end Chain

/-! ### The search -/

/-- The ends of the edges. -/
def targets (m : WaitForMap) : List ℕ :=
  m.entries.flatMap fun e => e.2.entries.map Sigma.fst

theorem mem_targets {m : WaitForMap} {u v : ℕ} {l : Locks} (h : m.edge u v = some l) :
    v ∈ targets m := by
  obtain ⟨waitFor, hu, hv⟩ := edge_eq_some_iff.mp h
  rw [AssocMap.lookup_eq_some_iff] at hu hv
  exact mem_flatMap.mpr ⟨⟨u, waitFor⟩, hu, mem_map.mpr ⟨⟨v, l⟩, hv, rfl⟩⟩

/-- The invariant of the search: the predecessors are a tree of edges that have not expired;
a vertex of it that is not on the stack has lost its expired edges, and the others lead into
the tree. -/
structure Search (now ttl : ℕ) (m₀ : WaitForMap) (txnTs start : ℕ) (m : WaitForMap)
    (stack : List ℕ) (pushed : List (ℕ × ℕ)) : Prop where
  pruned : WaitForMap.Pruned now ttl m₀ m
  tree : PredTree (m₀.Live now ttl) start 0 pushed
  onStack : ∀ u ∈ stack, u ∈ pushed.map Prod.fst
  goal : txnTs ∉ pushed.map Prod.fst
  done : ∀ u ∈ pushed.map Prod.fst, u ∉ stack → ∀ v, m.Edge u v → v ∈ pushed.map Prod.fst

section Search

variable {now ttl txnTs start currTs : ℕ} {m₀ m m' : WaitForMap} {stack stack' : List ℕ}
  {pushed pushed' : List (ℕ × ℕ)} {waitFor : WaitFor} {order : Order}

/-- A visited vertex whose edges have been followed. -/
theorem Search.push (hs : Search now ttl m₀ txnTs start m (currTs :: stack) pushed)
    (hpruned : WaitForMap.Pruned now ttl m m')
    (hpushes : Pushes (m₀.Live now ttl) start txnTs (targets m₀) stack pushed stack' pushed')
    (hedges : ∀ v, m'.Edge currTs v → v ∈ pushed'.map Prod.fst) :
    Search now ttl m₀ txnTs start m' stack' pushed' where
  pruned := hs.pruned.trans hpruned
  tree := hpushes.tree
  onStack := by
    intro u hu
    rcases hpushes.sound u hu with hu | hu
    · exact hpushes.mono u (hs.onStack u (mem_cons_of_mem _ hu))
    · exact hu
  goal := hpushes.goal hs.goal
  done := by
    intro u hu hstack v hv
    by_cases hcurr : u = currTs
    · subst hcurr
      exact hedges v hv
    · rcases hpushes.fresh u hu with hu | hu
      · obtain ⟨l, hl⟩ := hv
        refine hpushes.mono v (hs.done u hu ?_ v ⟨l, hpruned.sub hl⟩)
        intro hmem
        rcases mem_cons.mp hmem with heq | hmem
        · exact hcurr heq
        · exact hstack (hpushes.stack_mono u hmem)
      · exact absurd hu hstack

/-- A visited vertex without edges. -/
theorem Search.pop (hs : Search now ttl m₀ txnTs start m (currTs :: stack) pushed)
    (hpruned : WaitForMap.Pruned now ttl m m') (hedges : ∀ v, ¬ m'.Edge currTs v) :
    Search now ttl m₀ txnTs start m' stack pushed :=
  hs.push hpruned (.refl hs.tree) fun v hv => absurd hv (hedges v)

/-- A search that has come to its end: nothing leads to the goal, not even an expired edge. -/
theorem Search.not_reachable (hs : Search now ttl m₀ txnTs start m [] pushed) :
    ¬ ReflTransGen m.Edge start txnTs :=
  not_reflTransGen_of_closed (S := fun u => u ∈ pushed.map Prod.fst)
    (fun u v hu hv => hs.done u hu not_mem_nil v hv) hs.tree.start_mem hs.goal

/-- What a search that starts with the table `m₀` ends with. -/
inductive Outcome (now ttl : ℕ) (m₀ : WaitForMap) (txnTs start : ℕ) (m : WaitForMap) :
    Option (ℕ × List WaitForEntry) → Prop
  | none (h : ¬ ReflTransGen m.Edge start txnTs) : Outcome now ttl m₀ txnTs start m none
  | some {chain : List WaitForEntry} {e : WaitForEntry}
      (hpath : TransGen (m₀.Live now ttl) start txnTs)
      (hchain : WaitChain m₀ start (chain ++ [e]) txnTs) :
      Outcome now ttl m₀ txnTs start m (some (e.keyHash, chain ++ [e]))

/-- The goal has been found. -/
theorem Search.found {locks : Locks} (hm₀ : m₀.Ok) (hstart : start ≠ 0)
    (hs : Search now ttl m₀ txnTs start m (currTs :: stack) pushed)
    (hpruned : WaitForMap.Pruned now ttl m m')
    (htree : PredTree (m₀.Live now ttl) start 0 pushed') (hcurr : currTs ∈ pushed'.map Prod.fst)
    (hedge : m'.edge currTs txnTs = some locks) (hlive : locks.isExpired now ttl = false) :
    ∃ chain e, locks.toWaitForEntry currTs = .ok e ∧
      generateWaitChain m' start currTs pushed' = .ok chain ∧
      Outcome now ttl m₀ txnTs start m' (some (e.keyHash, chain ++ [e])) := by
  have hall := hs.pruned.trans hpruned
  have hm' : m'.Ok := hm₀.of_sub hall.sub
  have htree' : PredTree m'.Edge start 0 pushed' :=
    htree.mono fun u v huv => (hall.live_iff.mpr huv).edge
  obtain ⟨chain, hchain, hgen⟩ := generateWaitChain_eq hm' hstart htree' hcurr
  obtain ⟨e, he, htxn, hwait⟩ := hm'.toWaitForEntry hedge
  refine ⟨chain, e, he, hgen, .some ?_ ?_⟩
  · exact TransGen.tail' (htree.reachable hcurr) ⟨locks, hall.sub hedge, hlive⟩
  · exact (hchain.mono hall.sub).snoc (hall.sub hedge) he htxn hwait

/-- The search ends, fails no assertion, and finds a path if there is one. -/
theorem detectLoop_spec (hm₀ : m₀.Ok) (hstart : start ≠ 0)
    (horder : ∀ u entries, (order u entries).Perm entries) (fuel : ℕ)
    (hs : Search now ttl m₀ txnTs start m stack pushed)
    (hfuel : stack.length + unseen (targets m₀) pushed < fuel) :
    ∃ d m', detectLoop now ttl order txnTs start fuel m stack pushed = .ok (d, m') ∧
      WaitForMap.Pruned now ttl m₀ m' ∧ Outcome now ttl m₀ txnTs start m' d := by
  induction fuel generalizing m stack pushed with
  | zero => omega
  | succ fuel ih =>
    obtain _ | ⟨currTs, stack⟩ := stack
    · exact ⟨none, m, rfl, hs.pruned, .none hs.not_reachable⟩
    simp only [length_cons] at hfuel
    rw [detectLoop]
    cases hcurr : m.lookup currTs with
    | none =>
      have hedges : ∀ v, ¬ m.Edge currTs v := by
        rintro v ⟨l, hl⟩
        rw [edge, hcurr] at hl
        cases hl
      exact ih (hs.pop .refl hedges) (by omega)
    | some waitFor =>
      dsimp only
      split_ifs with hempty
      · have hedges : ∀ v, ¬ WaitForMap.Edge (m.erase currTs) currTs v := by
          rintro v ⟨l, hl⟩
          rw [edge_erase, if_pos rfl] at hl
          cases hl
        exact ih (hs.pop (pruned_erase hcurr hempty) hedges) (by omega)
      · -- The edges that are left at the vertex are those that have not expired.
        have hpruned := pruned_insert now ttl hcurr
        generalize hkept : AssocMap.retain waitFor (fun locks => !locks.isExpired now ttl) = kept
          at hpruned ⊢
        have hedge : ∀ v l, edge (m.insert currTs kept) currTs v = some l ↔
            ⟨v, l⟩ ∈ kept.entries := by
          intro v l
          rw [edge_insert, if_pos rfl, AssocMap.lookup_eq_some_iff]
        have hunexpired : ∀ v l, ⟨v, l⟩ ∈ kept.entries → l.isExpired now ttl = false := by
          intro v l hl
          rw [← AssocMap.lookup_eq_some_iff, ← hkept,
            AssocMap.lookup_retain_eq_some_iff] at hl
          simpa using hl.2
        have horig : ∀ v l, ⟨v, l⟩ ∈ kept.entries → m₀.edge currTs v = some l :=
          fun v l hl => (hs.pruned.trans hpruned).sub ((hedge v l).mpr hl)
        have hmem : ∀ e, e ∈ order currTs kept.entries ↔ e ∈ kept.entries :=
          fun e => (horder currTs kept.entries).mem_iff
        have hlive : ∀ e ∈ order currTs kept.entries, m₀.Live now ttl currTs e.1 :=
          fun e he => ⟨e.2, horig _ _ ((hmem e).mp he), hunexpired _ _ ((hmem e).mp he)⟩
        have hpushed := hs.onStack currTs mem_cons_self
        cases hvisit : visit txnTs currTs (order currTs kept.entries) stack pushed with
        | found locks pushed' =>
          obtain ⟨htree, hcurr', hgoal⟩ := visit_found hvisit hs.tree hpushed hlive
          have hgoal' := (hmem _).mp hgoal
          obtain ⟨chain, e, he, hgen, hout⟩ := hs.found hm₀ hstart hpruned htree hcurr'
            ((hedge _ _).mpr hgoal') (hunexpired _ _ hgoal')
          refine ⟨_, _, ?_, hs.pruned.trans hpruned, hout⟩
          simp only [he, hgen]
          rfl
        | done stack' pushed' =>
          obtain ⟨hpushes, hall⟩ := visit_done hvisit hs.tree hpushed hlive
            fun e he => mem_targets (horig _ _ ((hmem e).mp he))
          have hnext := hs.push hpruned hpushes fun v ⟨l, hl⟩ =>
            hall ⟨v, l⟩ ((hmem _).mpr ((hedge v l).mp hl))
          have hle := hpushes.fuel
          exact ih hnext (by omega)

end Search

/-! ### The table -/

namespace DetectTable

variable {t : DetectTable} {txnTs lockTs lockHash : ℕ} {key tag : Bytes} {order : Order}

/-- A search from the table as it is. -/
theorem doDetect_spec (hm : t.waitForMap.Ok) (hne : txnTs ≠ lockTs) (hlock : lockTs ≠ 0)
    (horder : ∀ u entries, (order u entries).Perm entries) :
    ∃ d m', t.doDetect order txnTs lockTs = .ok (d, m') ∧
      WaitForMap.Pruned t.now t.ttl t.waitForMap m' ∧
      Outcome t.now t.ttl t.waitForMap txnTs lockTs m' d := by
  refine detectLoop_spec hm hlock horder _ ⟨.refl, .root, by simp, by simpa using hne, ?_⟩ ?_
  · intro u hu hstack
    exact absurd (by simpa using hu) hstack
  · have hle : unseen (targets t.waitForMap) [(lockTs, 0)] ≤ (targets t.waitForMap).length :=
      length_filter_le _ _
    have hlen : (targets t.waitForMap).length = edgeCount t.waitForMap := by
      simp [targets, edgeCount]
    simp only [length_singleton]
    omega

/-- Expiry takes out edges that have expired, and no other. -/
theorem activeExpire_pruned (t : DetectTable) :
    WaitForMap.Pruned t.now t.ttl t.waitForMap t.activeExpire.waitForMap := by
  rw [activeExpire]
  split_ifs
  · constructor
    · intro u v l hl
      obtain ⟨waitFor, hu, hv⟩ := edge_eq_some_iff.mp hl
      obtain ⟨hu, -⟩ := lookup_retain_eq_some_iff.mp hu
      obtain ⟨old, hold, rfl⟩ := lookup_mapValues_eq_some_iff.mp hu
      obtain ⟨hv, -⟩ := lookup_retain_eq_some_iff.mp hv
      exact edge_eq_some_iff.mpr ⟨old, hold, hv⟩
    · intro u v l hl hexp
      obtain ⟨waitFor, hu, hv⟩ := edge_eq_some_iff.mp hl
      have hkept : (retain waitFor fun locks =>
          !locks.isExpired t.now t.ttl).lookup v = some l :=
        lookup_retain_eq_some_iff.mpr ⟨hv, by rw [hexp]; rfl⟩
      refine edge_eq_some_iff.mpr ⟨_, lookup_retain_eq_some_iff.mpr
        ⟨lookup_mapValues_eq_some_iff.mpr ⟨waitFor, hu, rfl⟩, ?_⟩, hkept⟩
      by_contra hempty
      rw [lookup_of_isEmpty (by simpa using hempty)] at hkept
      cases hkept
  · exact .refl

@[simp] theorem activeExpire_now (t : DetectTable) : t.activeExpire.now = t.now := by
  rw [activeExpire]
  split_ifs <;> rfl

@[simp] theorem activeExpire_ttl (t : DetectTable) : t.activeExpire.ttl = t.ttl := by
  rw [activeExpire]
  split_ifs <;> rfl

theorem registerIfExisted_eq_none (h : t.waitForMap.edge txnTs lockTs = none) :
    t.registerIfExisted txnTs lockTs lockHash key tag = none := by
  rw [registerIfExisted]
  rw [edge] at h
  cases hu : t.waitForMap.lookup txnTs with
  | none => rfl
  | some waitFor =>
    rw [hu, bind_some] at h
    simp only [h]

/-- Refreshing an edge keeps the graph. -/
theorem registerIfExisted_eq_some (lockHash : ℕ) (key tag : Bytes) {l : Locks}
    (hm : t.waitForMap.Ok) (h : t.waitForMap.edge txnTs lockTs = some l) :
    ∃ t', t.registerIfExisted txnTs lockTs lockHash key tag = some t' ∧ t'.waitForMap.Ok := by
  obtain ⟨waitFor, hu, hv⟩ := edge_eq_some_iff.mp h
  refine ⟨{ t with waitForMap := t.waitForMap.insert txnTs (waitFor.insert lockTs
    { l.push lockHash key t.now with resourceGroupTag := tag }) },
    by simp only [registerIfExisted, hu, hv], ?_⟩
  have hne := hm.ne_zero h
  have hkeys : (l.push lockHash key t.now).keys ≠ [] := by
    rw [Locks.push]
    dsimp only
    split_ifs
    · exact hm.keys h
    · simp
  have hts : l.ts = lockTs := hm.ts h
  have hok := hm.set (l := { l.push lockHash key t.now with resourceGroupTag := tag }) hts hkeys
    hne.1 hne.2 (.inl ⟨l, h⟩)
  rwa [hu] at hok

/-- Adding an edge that closes no cycle. -/
theorem register_spec (lockHash : ℕ) (key tag : Bytes) (hm : t.waitForMap.Ok)
    (h : t.waitForMap.edge txnTs lockTs = none) (htxn : txnTs ≠ 0) (hlock : lockTs ≠ 0)
    (hpath : ¬ ReflTransGen t.waitForMap.Edge lockTs txnTs) :
    ∃ t', t.register txnTs lockTs lockHash key tag = .ok t' ∧ t'.waitForMap.Ok := by
  have hnone : ((t.waitForMap.lookup txnTs).getD ∅).lookup lockTs = none := by
    rw [edge] at h
    cases hu : t.waitForMap.lookup txnTs with
    | none => rfl
    | some waitFor =>
      rw [hu] at h
      exact h
  refine ⟨_, by simp [register, hnone]; rfl, ?_⟩
  exact hm.set rfl (by simp [Locks.new]) htxn hlock (.inr hpath)

theorem cleanUp_ok (hm : t.waitForMap.Ok) : (t.cleanUp txnTs).waitForMap.Ok :=
  hm.of_sub edge_of_edge_erase

/-- Removing a key of an edge keeps the table in order. -/
theorem cleanUpWaitFor_ok (hm : t.waitForMap.Ok) :
    (t.cleanUpWaitFor txnTs lockTs lockHash).waitForMap.Ok := by
  rw [cleanUpWaitFor]
  cases hu : t.waitForMap.lookup txnTs with
  | none => exact hm
  | some waitFor =>
    dsimp only
    cases hv : waitFor.lookup lockTs with
    | none => exact hm
    | some l =>
      have hedge := edge_eq_some_iff.mpr ⟨waitFor, hu, hv⟩
      dsimp only
      cases hremove : l.remove lockHash with
      | mk empty rest =>
        cases empty with
        | true =>
          split_ifs
          · exact cleanUp_ok hm
          · exact hm.of_sub (edge_of_edge_insert hu fun hk =>
              (lookup_erase_eq_some_iff.mp hk).2)
        | false =>
          obtain ⟨hempty, rfl⟩ := Prod.mk.inj hremove
          have hne := hm.ne_zero hedge
          have hts : l.ts = lockTs := hm.ts hedge
          have hok := hm.set (l := (l.remove lockHash).2) hts
            (by simpa [Locks.remove] using hempty) hne.1 hne.2 (.inl ⟨l, hedge⟩)
          rwa [hu] at hok

/-- The chain is a path of edges of the table from `start` to `goal`, entry by entry. -/
structure RealChain (m : WaitForMap) (start goal : ℕ) (chain : List WaitForEntry) : Prop where
  head : chain.head?.map txn = some start
  next : chain.IsChain fun e e' => e.waitForTxn = e'.txn
  last : chain.getLast?.map waitForTxn = some goal
  edges : ∀ e ∈ chain, ∃ l, m.edge e.txn e.waitForTxn = some l ∧ l.toWaitForEntry e.txn = .ok e

/-- A chain of edges that is not empty is what the detector reports. -/
theorem realChain_of_waitChain {m : WaitForMap} {start goal : ℕ} {chain : List WaitForEntry}
    (h : WaitChain m start chain goal) (hne : chain ≠ []) : RealChain m start goal chain := by
  induction h with
  | nil => exact absurd rfl hne
  | @snoc chain u v l e hchain hl he htxn hwait ih =>
    have hedge : ∃ l, m.edge e.txn e.waitForTxn = some l ∧ l.toWaitForEntry e.txn = .ok e := by
      subst htxn hwait
      exact ⟨l, hl, he⟩
    by_cases hnil : chain = []
    · subst hnil
      have hu : u = start := by
        generalize hc : ([] : List WaitForEntry) = c at hchain
        cases hchain with
        | nil => rfl
        | snoc => simp at hc
      subst hu
      exact ⟨by simp [htxn], by simp, by simp [hwait], by simpa using hedge⟩
    · obtain ⟨hhead, hnext, hlast, hedges⟩ := ih hnil
      refine ⟨?_, ?_, by simp [hwait], ?_⟩
      · rw [head?_append_of_ne_nil _ hnil]
        exact hhead
      · apply hnext.append (by simp)
        intro x hx y hy
        obtain rfl : e = y := by simpa using hy
        rw [mem_def.mp hx] at hlast
        rw [htxn]
        simpa using hlast
      · exact forall_mem_append.mpr ⟨hedges, forall_mem_singleton.mpr hedge⟩

/-- A request fails no assertion and keeps the graph acyclic. It reports a deadlock if and only if
the edge is new and edges that have not expired lead back; the chain it reports is such a way. -/
theorem detect_spec (now lockHash : ℕ) (key tag : Bytes) (hm : t.waitForMap.Ok)
    (hne : txnTs ≠ lockTs) (htxn : txnTs ≠ 0) (hlock : lockTs ≠ 0)
    (horder : ∀ u entries, (order u entries).Perm entries) :
    ∃ d t', t.detect now order txnTs lockTs lockHash key tag = .ok (d, t') ∧ t'.waitForMap.Ok ∧
      (d.isSome ↔ ¬ t.waitForMap.Edge txnTs lockTs ∧
        TransGen (t.waitForMap.Live now t.ttl) lockTs txnTs) ∧
      ∀ hash chain, d = some (hash, chain) → RealChain t.waitForMap lockTs txnTs chain ∧
        chain.getLast?.map keyHash = some hash := by
  -- The table after the expiry, which has the same edges that have not expired.
  have hpruned := activeExpire_pruned { t with now }
  have hnow := activeExpire_now { t with now }
  have httl := activeExpire_ttl { t with now }
  rw [detect]
  generalize activeExpire { t with now } = t₁ at hpruned hnow httl ⊢
  have hm₁ : t₁.waitForMap.Ok := hm.of_sub hpruned.sub
  cases hedge : t₁.waitForMap.edge txnTs lockTs with
  | some l =>
    obtain ⟨t₂, hreg, hok⟩ := registerIfExisted_eq_some lockHash key tag hm₁ hedge
    refine ⟨none, t₂, by rw [hreg], hok, ?_, by simp⟩
    simp only [isSome_none, Bool.false_eq_true, false_iff, not_and]
    exact fun hnot => absurd ⟨l, hpruned.sub hedge⟩ hnot
  | none =>
    rw [registerIfExisted_eq_none hedge]
    obtain ⟨d, m', hdetect, hpruned', hout⟩ := doDetect_spec hm₁ hne hlock horder
    simp only [hdetect]
    have hm' : m'.Ok := hm₁.of_sub hpruned'.sub
    have hlive : ∀ u v, t.waitForMap.Live now t.ttl u v → t₁.waitForMap.Live t₁.now t₁.ttl u v := by
      intro u v huv
      rw [hnow, httl]
      exact hpruned.live_iff.mpr huv
    cases hout with
    | none hpath =>
      have hnone : m'.edge txnTs lockTs = none := by
        rw [eq_none_iff_forall_ne_some]
        intro l hl
        rw [hpruned'.sub hl] at hedge
        cases hedge
      obtain ⟨t₂, hreg, hok⟩ := register_spec (t := { t₁ with waitForMap := m' }) lockHash key tag
        hm' hnone htxn hlock hpath
      refine ⟨none, t₂, ?_, hok, ?_, by simp⟩
      · change (register { t₁ with waitForMap := m' } txnTs lockTs lockHash key tag >>= _) = _
        rw [hreg]
        rfl
      · simp only [isSome_none, Bool.false_eq_true, false_iff, not_and]
        intro _ hlivePath
        apply hpath
        have hedges : ∀ u v, t.waitForMap.Live now t.ttl u v → m'.Edge u v :=
          fun u v huv => (hpruned'.live_iff.mpr (hlive u v huv)).edge
        exact (TransGen.mono hedges _ _ hlivePath).to_reflTransGen
    | @some chain e hpath hchain =>
      have hpath' : TransGen (t.waitForMap.Live now t.ttl) lockTs txnTs := by
        refine TransGen.mono ?_ _ _ hpath
        intro u v huv
        rw [hnow, httl] at huv
        exact hpruned.live_iff.mp huv
      refine ⟨some (e.keyHash, chain ++ [e]), _, rfl, hm', ?_, ?_⟩
      · simp only [isSome_some, true_iff]
        refine ⟨?_, hpath'⟩
        intro hback
        have hedges : TransGen t.waitForMap.Edge lockTs txnTs :=
          TransGen.mono (fun _ _ h => h.edge) _ _ hpath'
        exact hm.acyclic lockTs (hedges.tail hback)
      · rintro hash chain' heq
        obtain ⟨rfl, rfl⟩ := Prod.mk.inj (some_injective _ heq)
        exact ⟨realChain_of_waitChain (hchain.mono hpruned.sub) (by simp), by simp⟩

/-! ### Runs -/

/-- A request to the detector. -/
inductive Event
  | detect (now : ℕ) (order : Order) (txnTs lockTs lockHash : ℕ) (lockKey resourceGroupTag : Bytes)
  | cleanUpWaitFor (txnTs lockTs lockHash : ℕ)
  | cleanUp (txnTs : ℕ)
  | clear
  | resetTtl (ttl : ℕ)

/-- Transactions are not zero and do not wait for themselves; a hash map is visited in some
order. -/
def Event.Valid : Event → Prop
  | .detect _ order txnTs lockTs _ _ _ => txnTs ≠ lockTs ∧ txnTs ≠ 0 ∧ lockTs ≠ 0 ∧
      ∀ u entries, (order u entries).Perm entries
  | _ => True

/-- The table after a request. -/
def step (t : DetectTable) : Event → Except Panic DetectTable
  | .detect now order txnTs lockTs lockHash lockKey tag => do
    let (_, t) ← t.detect now order txnTs lockTs lockHash lockKey tag
    .ok t
  | .cleanUpWaitFor txnTs lockTs lockHash => .ok (t.cleanUpWaitFor txnTs lockTs lockHash)
  | .cleanUp txnTs => .ok (t.cleanUp txnTs)
  | .clear => .ok t.clear
  | .resetTtl ttl => .ok (t.resetTtl ttl)

/-- The runs of the detector. The clock may do anything. -/
def Step (t : DetectTable) (e : Event) (t' : DetectTable) : Prop := e.Valid ∧ t.step e = .ok t'

theorem empty_ok : WaitForMap.Ok ∅ := by
  have hedge : ∀ u v l, edge ∅ u v ≠ some l := by
    intro u v l hl
    cases hl
  exact ⟨fun h => absurd h (hedge _ _ _), fun h => absurd h (hedge _ _ _),
    fun h => absurd h (hedge _ _ _), .of_empty fun u v ⟨l, hl⟩ => hedge u v l hl⟩

/-- **Every call keeps the table in order.** -/
theorem step_ok {e : Event} {t' : DetectTable} (hm : t.waitForMap.Ok) (h : Step t e t') :
    t'.waitForMap.Ok := by
  obtain ⟨hvalid, hstep⟩ := h
  cases e with
  | detect now order txnTs lockTs lockHash lockKey tag =>
    obtain ⟨hne, htxn, hlock, horder⟩ := hvalid
    obtain ⟨d, t₁, hdetect, hok, -⟩ := detect_spec now lockHash lockKey tag hm hne htxn hlock horder
    rw [step, hdetect] at hstep
    obtain rfl := Except.ok.inj hstep
    exact hok
  | cleanUpWaitFor txnTs lockTs lockHash =>
    obtain rfl := Except.ok.inj hstep
    exact cleanUpWaitFor_ok hm
  | cleanUp txnTs =>
    obtain rfl := Except.ok.inj hstep
    exact cleanUp_ok hm
  | clear =>
    obtain rfl := Except.ok.inj hstep
    exact empty_ok
  | resetTtl ttl =>
    obtain rfl := Except.ok.inj hstep
    exact hm

/-- Deadlock detection is exact. In every state that requests reach, the graph of all the edges in
the table is acyclic; and the next request for an edge succeeds, reports a deadlock if and only if
the edge is new and edges that have not expired lead from the transaction waited for to the
waiting one, and then returns a chain of registered edges that is such a path. -/
theorem deadlock_detection_exact (ttl now₀ : ℕ) {es : List Event} {t : DetectTable}
    (hrun : Exec Step (new ttl now₀) es t) :
    Acyclic t.waitForMap.Edge ∧
    ∀ now order txnTs lockTs lockHash lockKey tag, txnTs ≠ lockTs → txnTs ≠ 0 → lockTs ≠ 0 →
      (∀ u entries, (order u entries).Perm entries) →
      ∃ d t', t.detect now order txnTs lockTs lockHash lockKey tag = .ok (d, t') ∧
        (d.isSome ↔ ¬ t.waitForMap.Edge txnTs lockTs ∧
          TransGen (t.waitForMap.Live now t.ttl) lockTs txnTs) ∧
        ∀ hash chain, d = some (hash, chain) → RealChain t.waitForMap lockTs txnTs chain ∧
          chain.getLast?.map keyHash = some hash := by
  have hm : t.waitForMap.Ok :=
    hrun.invariant (I := fun t => t.waitForMap.Ok) (fun _ _ _ hm h => step_ok hm h) empty_ok
  refine ⟨hm.acyclic, ?_⟩
  intro now order txnTs lockTs lockHash lockKey tag hne htxn hlock horder
  obtain ⟨d, t', hdetect, -, hiff, hchain⟩ := detect_spec now lockHash lockKey tag hm hne htxn hlock
    horder
  exact ⟨d, t', hdetect, hiff, hchain⟩

/-- The transaction 1 waits for 2; when 2 is to wait for 1 before the edge has expired, the deadlock
is reported. -/
theorem deadlock_detection_exact_two : ∃ t,
    Exec Step (new 10 0) [.detect 0 (fun _ entries => entries) 1 2 7 [] []] t ∧
    Acyclic t.waitForMap.Edge ∧
    ∃ t', t.detect 5 (fun _ entries => entries) 2 1 8 [] [] =
      .ok (some (7, [⟨1, 2, 7, [], []⟩]), t') := by
  have hvalid : (Event.detect 0 (fun _ entries => entries) 1 2 7 [] []).Valid :=
    ⟨by decide, by decide, by decide, fun _ _ => .refl _⟩
  have hrun := Exec.cons (R := Step) (s := new 10 0) ⟨hvalid, rfl⟩ (.nil _)
  exact ⟨_, hrun, (deadlock_detection_exact 10 0 hrun).1, _, rfl⟩

end DetectTable

end Tikv.Deadlock
