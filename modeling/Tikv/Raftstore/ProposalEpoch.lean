import Mathlib.Data.List.TakeWhile
import Mathlib.Order.Nat
import Tikv.Raftstore.EpochChecker

/-!
# A checked proposal passes the epoch check when it is applied

The checker records every entry of the term that changes the epoch and is not known to be applied.
So a request that has no conflict with a recorded command agrees, in the parts of the epoch it
checks, with all entries before it, and these parts stay as they were when it was proposed.
-/

namespace Tikv.Raftstore

open List Option CmdEpochChecker AdminCmdEpochState RaftCmdRequest

universe u

variable {K : Type u}

/-! ### The parts of the epoch that a request checks -/

section Agree

variable {s t : AdminCmdEpochState} {r r' r'' : Region K} {req : RaftCmdRequest K}

/-- The regions have the same epoch in the parts that are checked. -/
structure Agree (s : AdminCmdEpochState) (r r' : Region K) : Prop where
  version : s.checkVer = true → r.regionEpoch.version = r'.regionEpoch.version
  confVer : s.checkConfVer = true → r.regionEpoch.confVer = r'.regionEpoch.confVer

theorem Agree.trans (h : Agree s r r') (h' : Agree s r' r'') : Agree s r r'' :=
  ⟨fun hs => (h.version hs).trans (h'.version hs), fun hs => (h.confVer hs).trans (h'.confVer hs)⟩

theorem conflicts_eq_false_iff : s.conflicts t = false ↔
    (s.checkVer = true → t.changeVer = false) ∧
      (s.checkConfVer = true → t.changeConfVer = false) := by
  simp [conflicts]

theorem conflicts_of_not_changes (h : t.changes = false) : s.conflicts t = false := by
  rw [changes, Bool.or_eq_false_iff] at h
  exact conflicts_eq_false_iff.mpr ⟨fun _ => h.2, fun _ => h.1⟩

theorem KeepsEpoch.agree (h : KeepsEpoch t r r') (hs : s.conflicts t = false) : Agree s r r' := by
  obtain ⟨hver, hconf⟩ := conflicts_eq_false_iff.mp hs
  exact ⟨fun hc => (h.version (hver hc)).symm, fun hc => (h.confVer (hconf hc)).symm⟩

/-- Regions with epochs that agree pass the same checks. -/
theorem checkRegionEpoch_of_agree (h : Agree req.epochState r r') {b : Bool}
    (hok : checkRegionEpoch req r b = .ok ()) (b' : Bool) :
    checkRegionEpoch req r' b' = .ok () := by
  unfold checkRegionEpoch at hok ⊢
  dsimp only at hok ⊢
  split_ifs at hok ⊢ with hnone
  · rfl
  · split at hok
    · exact absurd hok (by simp)
    · rename_i fromEpoch _
      unfold compareRegionEpoch at hok ⊢
      dsimp only at hok ⊢
      split_ifs at hok with hdiff
      rw [if_neg]
      intro hdiff'
      apply hdiff
      simp only [Bool.or_eq_true, Bool.and_eq_true] at hdiff' ⊢
      rcases hdiff' with ⟨hc, hne⟩ | ⟨hc, hne⟩
      · exact .inl ⟨hc, h.confVer hc ▸ hne⟩
      · exact .inr ⟨hc, h.version hc ▸ hne⟩

end Agree

/-! ### The queue of the checker -/

/-- The table: what changes the version checks both parts, what changes the conf version checks
it. -/
theorem check_of_change (ty : AdminCmdType) :
    ((adminCmdEpochLookup ty).changeVer = true → (adminCmdEpochLookup ty).checkVer = true) ∧
      ((adminCmdEpochLookup ty).changes = true → (adminCmdEpochLookup ty).checkConfVer = true) := by
  cases ty <;> decide

/-- The rows and the indexes of the recorded commands. -/
structure Recorded (rows : List (AdminCmdEpochState × ℕ)) (lastIndex : ℕ) : Prop where
  table : ∀ p ∈ rows, ∃ ty, p.1 = adminCmdEpochLookup ty ∧ p.1.changes = true
  compatible : rows.Pairwise fun p q => q.1.conflicts p.1 = false
  index_le : ∀ p ∈ rows, p.2 ≤ lastIndex

namespace Recorded

variable {rows rows' : List (AdminCmdEpochState × ℕ)} {lastIndex : ℕ}

theorem nil : Recorded [] lastIndex := ⟨by simp, .nil, by simp⟩

section

variable (h : Recorded rows lastIndex)
include h

theorem sublist (hs : rows'.Sublist rows) :
    Recorded rows' lastIndex :=
  ⟨fun p hp => h.table p (hs.subset hp), h.compatible.sublist hs,
    fun p hp => h.index_le p (hs.subset hp)⟩

theorem mono {lastIndex' : ℕ} (hle : lastIndex ≤ lastIndex') :
    Recorded rows lastIndex' :=
  ⟨h.table, h.compatible, fun p hp => (h.index_le p hp).trans hle⟩

theorem append {ty : AdminCmdType} {index : ℕ} (hlt : lastIndex < index)
    (hchanges : (adminCmdEpochLookup ty).changes = true)
    (hnone : ∀ p ∈ rows, (adminCmdEpochLookup ty).conflicts p.1 = false) :
    Recorded (rows ++ [(adminCmdEpochLookup ty, index)]) index where
  table := forall_mem_append.mpr ⟨h.table, forall_mem_singleton.mpr ⟨ty, rfl, hchanges⟩⟩
  compatible := pairwise_append.mpr ⟨h.compatible, pairwise_singleton _ _,
    fun p hp => forall_mem_singleton.mpr (hnone p hp)⟩
  index_le := forall_mem_append.mpr
    ⟨fun p hp => (h.index_le p hp).trans hlt.le, forall_mem_singleton.mpr le_rfl⟩

/-- A command that changes the conf version is the last one, and at most one changes the version
only. -/
theorem length_le_two : rows.length ≤ 2 := by
  match rows, h with
  | [], _ | [_], _ | [_, _], _ => simp
  | p :: q :: r :: rest, h =>
    obtain ⟨hp, hrest⟩ := pairwise_cons.mp h.compatible
    obtain ⟨hq, -⟩ := pairwise_cons.mp hrest
    have hpq := conflicts_eq_false_iff.mp (hp q mem_cons_self)
    have hqr := conflicts_eq_false_iff.mp (hq r mem_cons_self)
    obtain ⟨ty, hqty, hqchanges⟩ := h.table q (by simp)
    obtain ⟨ty', hrty, hrchanges⟩ := h.table r (by simp)
    obtain ⟨ty'', hpty, hpchanges⟩ := h.table p (by simp)
    -- Neither of the first two changes the conf version, which the next one checks.
    have hqconf : q.1.changeConfVer = false :=
      hqr.2 (hrty ▸ (check_of_change ty').2 (hrty ▸ hrchanges))
    have hpconf : p.1.changeConfVer = false :=
      hpq.2 (hqty ▸ (check_of_change ty).2 (hqty ▸ hqchanges))
    have hqver : q.1.changeVer = true := by
      simpa [changes, hqconf] using hqchanges
    have hpver : p.1.changeVer = true := by
      simpa [changes, hpconf] using hpchanges
    -- So both change the version, which the second one checks.
    have hcheck : q.1.checkVer = true := hqty ▸ (check_of_change ty).1 (hqty ▸ hqver)
    exact absurd (hpver.symm.trans (hpq.1 hcheck)) (by simp)

end

end Recorded

namespace CmdEpochChecker

variable {c : CmdEpochChecker} {term index cb : ℕ} {s : AdminCmdEpochState}

/-- The row and the index of a command. -/
def row (cmd : ProposedAdminCmd) : AdminCmdEpochState × ℕ := (cmd.epochState, cmd.index)

/-- The commands of the term. -/
def queue (c : CmdEpochChecker) (term : ℕ) : List ProposedAdminCmd :=
  if c.term = term then c.proposedAdminCmd else []

/-- The rows of the commands of the term. -/
def rows (c : CmdEpochChecker) (term : ℕ) : List (AdminCmdEpochState × ℕ) :=
  (c.queue term).map row

theorem rows_eq (hterm : c.term = term) : c.rows term = c.proposedAdminCmd.map row := by
  rw [rows, queue, if_pos hterm]

theorem length_le_two {lastIndex : ℕ} (hterm : c.term = term)
    (h : Recorded (c.rows term) lastIndex) : c.proposedAdminCmd.length ≤ 2 := by
  rw [← length_map row, ← rows_eq hterm]
  exact h.length_le_two

theorem maybeUpdateTerm_ok (h : c.term ≤ term) :
    ∃ notices : List (Notice K), c.maybeUpdateTerm term = .ok (⟨c.queue term, term⟩, notices) := by
  unfold maybeUpdateTerm queue
  rw [if_neg (not_lt.mpr h)]
  rcases h.eq_or_lt with rfl | hlt
  · exact ⟨[], by rw [if_neg (lt_irrefl _), if_pos rfl]⟩
  · exact ⟨_, by rw [if_pos hlt, if_neg hlt.ne]⟩

theorem lastConflictIndex_eq_none (h : c.lastConflictIndex s = none) :
    ∀ p ∈ c.proposedAdminCmd.map row, s.conflicts p.1 = false := by
  intro p hp
  obtain ⟨cmd, hcmd, rfl⟩ := mem_map.mp hp
  rw [lastConflictIndex, map_eq_none_iff, find?_eq_none] at h
  simpa [row] using h cmd (mem_reverse.mpr hcmd)

theorem exists_of_lastConflictIndex (h : c.lastConflictIndex s = some index) :
    c.proposedAdminCmd.any (·.index = index) := by
  obtain ⟨cmd, hcmd, rfl⟩ := map_eq_some_iff.mp h
  exact any_eq_true.mpr
    ⟨cmd, mem_reverse.mp (mem_of_find?_eq_some hcmd), by simp⟩

theorem map_row_pushCallback (l : List ProposedAdminCmd) :
    (pushCallback index cb l).map row = l.map row := by
  induction l with
  | nil => rfl
  | cons cmd l ih =>
    rw [pushCallback]
    split_ifs
    · rfl
    · rw [map_cons, map_cons, ih]

/-- A command without conflict is recorded if it changes the epoch. -/
theorem postPropose_ok {cmdType : AdminCmdType} (hterm : c.term = term)
    (hnone : c.lastConflictIndex (adminCmdEpochLookup cmdType) = none)
    (hindex : ∀ p ∈ c.proposedAdminCmd.map row, p.2 < index) :
    ∃ c', c'.term = term ∧
      c'.proposedAdminCmd.map row = c.proposedAdminCmd.map row ++
        (if (adminCmdEpochLookup cmdType).changes then [(adminCmdEpochLookup cmdType, index)]
          else []) ∧
      ∃ notices : List (Notice K), c.postPropose cmdType index term = .ok (c', notices) := by
  obtain ⟨notices, hupdate⟩ := maybeUpdateTerm_ok (K := K) hterm.le
  have hqueue : c.queue term = c.proposedAdminCmd := if_pos hterm
  have hc : (⟨c.queue term, term⟩ : CmdEpochChecker) = c := by rw [hqueue, ← hterm]
  rw [hc] at hupdate
  have hlast : (c.proposedAdminCmd.getLast?.any fun cmd => index ≤ cmd.index) = false := by
    cases hl : c.proposedAdminCmd.getLast? with
    | none => rfl
    | some cmd =>
      have hlt := hindex (row cmd) (mem_map_of_mem (mem_of_getLast? hl))
      simpa [row] using hlt
  unfold postPropose
  simp only [hupdate, hnone, hlast]
  by_cases hchanges : (adminCmdEpochLookup cmdType).changes
  · refine ⟨{ c with proposedAdminCmd := c.proposedAdminCmd ++
      [⟨cmdType, adminCmdEpochLookup cmdType, index, []⟩] }, hterm, ?_, notices, if_pos hchanges⟩
    rw [if_pos hchanges, map_append]
    rfl
  · refine ⟨c, hterm, ?_, notices, if_neg hchanges⟩
    rw [if_neg hchanges, append_nil]

end CmdEpochChecker

/-! ### The invariant of a leader -/

namespace Leader

variable {term : ℕ} {s t : Leader K} {r r' d : Region K} {l l' : List (Entry K × Region K)}

/-- The epochs of the regions after executed entries follow from each other. -/
inductive Follows : Region K → List (Entry K × Region K) → Region K → Prop
  | nil {r d : Region K} : r.regionEpoch = d.regionEpoch → Follows r [] d
  | cons {r r' d : Region K} {e : Entry K} {l : List (Entry K × Region K)} :
    KeepsEpoch e.epochState r r' → Follows r' l d → Follows r ((e, r') :: l) d

theorem Follows.congr (hr : r.regionEpoch = r'.regionEpoch) (h : Follows r' l d) :
    Follows r l d := by
  cases h with
  | nil h => exact .nil (hr.trans h)
  | cons hkeeps hrest => exact .cons ⟨hr ▸ hkeeps.version, hr ▸ hkeeps.confVer⟩ hrest

theorem Follows.append (h : Follows r l r') (h' : Follows r' l' d) : Follows r (l ++ l') d := by
  induction h with
  | nil hr => exact h'.congr hr
  | cons hkeeps _ ih => exact .cons hkeeps (ih h')

theorem Follows.of_append {p : Entry K × Region K} (h : Follows r (l ++ l') d)
    (hlast : l.getLast? = some p) : Follows p.2 l' d := by
  induction l generalizing r with
  | nil => simp at hlast
  | cons q l ih =>
    cases h with
    | cons hkeeps hrest =>
      cases l with
      | nil =>
        obtain rfl : (_, _) = p := by simpa using hlast
        exact hrest
      | cons q' l => exact ih hrest (by simpa using hlast)

theorem Follows.of_regionEpoch (hl : ∀ p ∈ l, p.2.regionEpoch = r.regionEpoch)
    (hd : d.regionEpoch = r.regionEpoch) : Follows r l d := by
  induction l generalizing r with
  | nil => exact .nil hd.symm
  | cons p l ih =>
    have hp := hl p mem_cons_self
    refine .cons ⟨fun _ => congrArg _ hp, fun _ => congrArg _ hp⟩ (ih ?_ (hd.trans hp.symm))
    intro q hq
    exact (hl q (mem_cons_of_mem _ hq)).trans hp.symm

theorem Follows.agree {st : AdminCmdEpochState} (h : Follows r l d)
    (hl : ∀ p ∈ l, st.conflicts p.1.epochState = false) : Agree st r d := by
  induction h with
  | nil hr => exact ⟨fun _ => congrArg _ hr, fun _ => congrArg _ hr⟩
  | cons hkeeps _ ih =>
    exact (hkeeps.agree (hl _ mem_cons_self)).trans
      (ih fun p hp => hl p (mem_cons_of_mem _ hp))

/-- What holds of a leader within a term. -/
structure Inv (term : ℕ) (s : Leader K) : Prop where
  term_le : s.checker.term ≤ term
  rows : Recorded (s.checker.rows term) s.lastIndex
  length_le : s.checker.proposedAdminCmd.length ≤ 2
  recorded : ∀ e ∈ s.entries, e.epochState.changes = true →
    (e.epochState, e.index) ∈ s.checker.rows term
  ordered : s.entries.Pairwise (·.index < ·.index)
  index_le : ∀ e ∈ s.entries, e.index ≤ s.lastIndex
  follows : Follows s.region s.applied s.delegate
  compatible : s.unapplied.Pairwise fun a b =>
    b.checked = true → b.epochState.conflicts a.epochState = false
  passes : ∀ e ∈ s.unapplied, e.checked = true →
    ∀ b, checkRegionEpoch e.request s.delegate b = .ok ()

/-- A new leader has not checked any entry. -/
theorem Initial.inv (h : Initial term s) : Inv term s where
  term_le := h.term_le
  rows := by
    rw [rows, queue]
    split_ifs with hterm
    · rw [h.proposed hterm]
      exact .nil
    · exact .nil
  length_le := h.length_le
  recorded := by
    intro e he hchanges
    exact absurd (hchanges.symm.trans (h.entries e he).1) (by simp)
  ordered := h.ordered
  index_le := h.index_le
  follows := by
    refine .of_regionEpoch (fun p hp => ?_) h.delegate
    exact h.applied p hp
  compatible := by
    refine (pairwise_of_forall_mem_list ?_)
    intro a ha b hb hchecked
    exact absurd (hchecked.symm.trans (h.entries b (mem_append_right _ hb)).2) (by simp)
  passes := by
    intro e he hchecked
    exact absurd (hchecked.symm.trans (h.entries e (mem_append_right _ he)).2) (by simp)

/-- A step raises no panic, and keeps the invariant if it is possible. -/
def Keeps (term : ℕ) (x : Except Panic (Option (Leader K × List (Notice K)))) : Prop :=
  ∃ result, x = .ok result ∧ ∀ t notices, result = some (t, notices) → Inv term t

theorem Keeps.none : Keeps term (.ok none : Except Panic (Option (Leader K × List (Notice K)))) :=
  ⟨_, rfl, nofun⟩

theorem Keeps.of_inv {notices : List (Notice K)} (h : Inv term t) :
    Keeps term (.ok (some (t, notices))) := by
  refine ⟨_, rfl, fun t' notices' ht => ?_⟩
  obtain ⟨rfl, -⟩ := Prod.ext_iff.mp (some.inj ht)
  exact h

section

variable (h : Inv term s)
include h

/-- No entry that the peer does not know to be applied conflicts with a request that has no conflict
with a recorded command. -/
theorem Inv.conflicts_entries {st : AdminCmdEpochState}
    (hrows : ∀ p ∈ s.checker.rows term, st.conflicts p.1 = false) :
    ∀ e ∈ s.entries, st.conflicts e.epochState = false := by
  intro e he
  cases hchanges : e.epochState.changes with
  | false => exact conflicts_of_not_changes hchanges
  | true => exact hrows _ (h.recorded e he hchanges)

variable {checker : CmdEpochChecker}

/-- An entry is appended to the log, and recorded if it changes the epoch. -/
theorem Inv.push {index : ℕ} {req : RaftCmdRequest K} {checked : Bool} (hlt : s.lastIndex < index)
    (hterm : checker.term ≤ term) (hrows : Recorded (checker.rows term) index)
    (hlength : checker.proposedAdminCmd.length ≤ 2)
    (hmem : ∀ p ∈ s.checker.rows term, p ∈ checker.rows term)
    (hrecorded : req.epochState.changes = true → (req.epochState, index) ∈ checker.rows term)
    (hchecked : checked = true → checkRegionEpoch req s.region true = .ok () ∧
      ∀ p ∈ s.checker.rows term, req.epochState.conflicts p.1 = false) :
    Inv term ({ s with checker }.push index req checked) := by
  have hentries : ({ s with checker }.push index req checked).entries =
      s.entries ++ [⟨index, req, checked⟩] := (append_assoc ..).symm
  refine ⟨hterm, hrows, hlength, ?_, ?_, ?_, h.follows, ?_, ?_⟩
  · rw [hentries]
    exact forall_mem_append.mpr ⟨fun e he hchanges => hmem _ (h.recorded e he hchanges),
      forall_mem_singleton.mpr hrecorded⟩
  · rw [hentries]
    exact pairwise_append.mpr ⟨h.ordered, pairwise_singleton _ _,
      fun e he => forall_mem_singleton.mpr ((h.index_le e he).trans_lt hlt)⟩
  · rw [hentries]
    exact forall_mem_append.mpr
      ⟨fun e he => (h.index_le e he).trans hlt.le, forall_mem_singleton.mpr le_rfl⟩
  · refine pairwise_append.mpr ⟨h.compatible, pairwise_singleton _ _,
      fun e he => forall_mem_singleton.mpr fun hc => ?_⟩
    exact h.conflicts_entries (hchecked hc).2 e (mem_append_right _ he)
  · intro e he hc
    rcases mem_append.mp he with he | he
    · exact h.passes e he hc
    · obtain rfl := mem_singleton.mp he
      obtain ⟨hok, hnone⟩ := hchecked hc
      -- What the request checks is the same in the peer's region and in the delegate's.
      have hagree : Agree req.epochState s.region s.delegate := h.follows.agree fun p hp =>
        h.conflicts_entries hnone p.1 (mem_append_left _ (mem_map_of_mem hp))
      exact checkRegionEpoch_of_agree hagree hok

theorem Inv.setChecker (hterm : checker.term = term)
    (hrows : checker.proposedAdminCmd.map row = s.checker.rows term) :
    Inv term { s with checker } := by
  have heq := (rows_eq hterm).trans hrows
  have hrows : Recorded (checker.rows term) s.lastIndex := heq ▸ h.rows
  exact ⟨hterm.le, hrows, length_le_two hterm hrows, heq ▸ h.recorded, h.ordered,
    h.index_le, h.follows, h.compatible, h.passes⟩

variable [LinearOrder K] [OrderBot K]

/-- A proposal that passes the check is compatible with all that is not applied yet. -/
theorem Inv.propose {index cb : ℕ} {req : RaftCmdRequest K} :
    Keeps term (step term s (.propose req index cb)) := by
  rw [step]
  split_ifs with hindex
  · exact .none
  have hlt := not_le.mp hindex
  cases hcheck : checkRegionEpoch req s.region true with
  | error e => exact .none
  | ok _ =>
    obtain ⟨notices, hupdate⟩ := maybeUpdateTerm_ok (K := K) h.term_le
    set checker : CmdEpochChecker := ⟨s.checker.queue term, term⟩ with hchecker
    have hrows : checker.rows term = s.checker.rows term := rows_eq rfl
    have hpropose : s.checker.proposeCheckEpoch req term =
        .ok (checker.lastConflictIndex req.epochState, checker, notices) := by
      rw [proposeCheckEpoch, hupdate]
      rfl
    simp only [hpropose]
    cases hconflict : checker.lastConflictIndex req.epochState with
    | some conflict =>
      have hany := exists_of_lastConflictIndex hconflict
      have hattach : checker.attachToConflictCmd conflict cb = .ok { checker with
          proposedAdminCmd := (pushCallback conflict cb
            checker.proposedAdminCmd.reverse).reverse } := if_pos hany
      simp only [hattach]
      refine .of_inv (h.setChecker rfl ?_)
      rw [map_reverse, map_row_pushCallback, map_reverse,
        reverse_reverse]
      rfl
    | none =>
      have hnone := lastConflictIndex_eq_none hconflict
      cases hadmin : req.adminType with
      | none =>
        have hrecorded : Recorded (checker.rows term) index := hrows ▸ h.rows.mono hlt.le
        refine .of_inv (h.push hlt le_rfl hrecorded (length_le_two rfl hrecorded)
          (fun p hp => hrows ▸ hp) ?_ fun _ => ⟨hcheck, hnone⟩)
        intro hchanges
        rw [epochState, hadmin] at hchanges
        exact absurd hchanges (by decide)
      | some cmdType =>
        have hstate : req.epochState = adminCmdEpochLookup cmdType := by
          rw [epochState, hadmin]
          rfl
        rw [hstate] at hconflict hnone
        have hterm : checker.term = term := rfl
        have hlast : ∀ p ∈ checker.proposedAdminCmd.map row, p.2 < index :=
          fun p hp => (h.rows.index_le p hp).trans_lt hlt
        obtain ⟨checker', hterm', hrows', more, hpost⟩ :=
          postPropose_ok (K := K) hterm hconflict hlast
        have hrows'' : checker'.rows term = s.checker.rows term ++
            if (adminCmdEpochLookup cmdType).changes then [(adminCmdEpochLookup cmdType, index)]
              else [] := (rows_eq hterm').trans hrows'
        have hrecorded : Recorded (checker'.rows term) index := by
          rw [hrows'']
          split_ifs with hchanges
          · exact h.rows.append hlt hchanges hnone
          · exact (append_nil _).symm ▸ h.rows.mono hlt.le
        simp only [hpost]
        refine .of_inv (h.push hlt hterm'.le hrecorded
          (length_le_two hterm' hrecorded) (fun p hp => ?_) ?_
          fun _ => ⟨hcheck, hstate ▸ hnone⟩)
        · exact hrows'' ▸ mem_append_left _ hp
        · intro hchanges
          rw [hstate] at hchanges ⊢
          rw [hrows'', if_pos hchanges]
          exact mem_append_right _ (mem_singleton_self _)

/-- What is applied leaves the checks of the entries behind it valid. -/
theorem Inv.apply {ctx : ApplyContext K} : Keeps term (step term s (.apply ctx)) := by
  rw [step]
  cases hunapplied : s.unapplied with
  | nil => exact .none
  | cons e rest =>
    dsimp only
    cases happly : applyRaftCmd ctx s.delegate e.request with
    | none => exact .none
    | some delegate =>
      refine .of_inv ?_
      have hkeeps := applyRaftCmd_keepsEpoch happly
      have hentries : (s.applied ++ [(e, delegate)]).map (·.1) ++ rest = s.entries := by
        rw [entries, hunapplied]
        simp
      have hcompatible := h.compatible
      rw [hunapplied] at hcompatible
      obtain ⟨hhead, htail⟩ := pairwise_cons.mp hcompatible
      refine ⟨h.term_le, h.rows, h.length_le, ?_, ?_, ?_, ?_, htail, ?_⟩
      · intro e' he'
        exact h.recorded e' (hentries ▸ he')
      · exact (congrArg _ hentries).mpr h.ordered
      · intro e' he'
        exact h.index_le e' (hentries ▸ he')
      · exact h.follows.append (.cons hkeeps (.nil rfl))
      · -- The entry changes nothing that a later checked entry checks.
        intro e' he' hc b
        have hpasses := h.passes e' (hunapplied ▸ mem_cons_of_mem _ he') hc b
        exact checkRegionEpoch_of_agree (hkeeps.agree (hhead e' he' hc)) hpasses b

/-- The leader follows what was applied, and forgets the proposals up to it. -/
theorem Inv.postApply {count : ℕ} : Keeps term (step term s (.postApply count)) := by
  rw [step]
  cases hlast : (s.applied.take count).getLast? with
  | none => exact .none
  | some p =>
    obtain ⟨e, region⟩ := p
    obtain ⟨notices, hupdate⟩ := maybeUpdateTerm_ok (K := K) h.term_le
    simp only [advanceApply, hupdate]
    refine .of_inv ?_
    have hsplit : s.entries = (s.applied.take count).map (·.1) ++
        ((s.applied.drop count).map (·.1) ++ s.unapplied) := by
      rw [← append_assoc, ← map_append, take_append_drop]
      rfl
    have hordered := h.ordered
    rw [hsplit] at hordered
    obtain ⟨-, hrest, hcross⟩ := pairwise_append.mp hordered
    set checker : CmdEpochChecker := ⟨(s.checker.queue term).dropWhile (·.index ≤ e.index), term⟩
    have hrows : checker.rows term =
        ((s.checker.queue term).dropWhile (·.index ≤ e.index)).map row :=
      rows_eq rfl
    have hrecorded : Recorded (checker.rows term) s.lastIndex :=
      hrows ▸ h.rows.sublist ((dropWhile_sublist _).map _)
    refine ⟨le_rfl, hrecorded, length_le_two rfl hrecorded, ?_, hrest, ?_, ?_,
      h.compatible, h.passes⟩
    · intro e' he' hchanges
      have hmem := h.recorded e' (hsplit ▸ mem_append_right _ he') hchanges
      have hlt : e.index < e'.index := hcross e
        (mem_map.mpr ⟨_, mem_of_getLast? hlast, rfl⟩) e' he'
      obtain ⟨cmd, hcmd, hrow⟩ := mem_map.mp hmem
      have hindex : cmd.index = e'.index := congrArg Prod.snd hrow
      rw [hrows, ← hrow]
      refine mem_map_of_mem ?_
      rw [← takeWhile_append_dropWhile (p := fun cmd => cmd.index ≤ e.index)
        (l := s.checker.queue term)] at hcmd
      rcases mem_append.mp hcmd with hcmd | hcmd
      · have hle := mem_takeWhile_imp hcmd
        rw [decide_eq_true_eq] at hle
        omega
      · exact hcmd
    · intro e' he'
      exact h.index_le e' (hsplit ▸ mem_append_right _ he')
    · have hfollows := h.follows
      rw [← take_append_drop count s.applied] at hfollows
      exact hfollows.of_append hlast

/-- No event makes the checker panic, and every event keeps the invariant. -/
theorem Inv.step_ok (event : LeaderEvent K) : Keeps term (step term s event) := by
  cases event with
  | propose req index cb => exact h.propose
  | apply ctx => exact h.apply
  | postApply count => exact h.postApply
  | proposeUnchecked req index =>
    rw [Leader.step]
    split_ifs with hnot
    · exact .none
    · obtain ⟨hlt, hadmin⟩ := not_or.mp hnot
      have hlt := not_le.mp hlt
      refine .of_inv (h.push hlt h.term_le (h.rows.mono hlt.le) h.length_le (fun _ => id) ?_ nofun)
      intro hchanges
      rw [epochState, adminType,
        not_isSome_iff_eq_none.mp hadmin] at hchanges
      change normalReqEpochState.changes = true at hchanges
      exact absurd hchanges (by decide)

theorem Inv.step {event : LeaderEvent K} (hstep : Step term s event t) :
    Inv term t := by
  obtain ⟨notices, hstep⟩ := hstep
  obtain ⟨result, hresult, hinv⟩ := h.step_ok event
  exact hinv t notices (ok_unique hresult hstep)

end

variable [LinearOrder K] [OrderBot K]

/-- **A proposal that passes the epoch checks applies.** In every run of a leader within a term in
which no entry of an earlier term that changes the epoch is unapplied: a request whose epoch was
checked when it was proposed passes the check against the region of the delegate when it is its turn
to be applied, no assertion of the checker fails, and the checker never holds more than two
commands. -/
theorem proposal_passes_epoch_check (term : ℕ) (s₀ s : Leader K) (events : List (LeaderEvent K))
    (hinit : Initial term s₀) (hrun : Exec (Step term) s₀ events s) :
    (∀ e rest, s.unapplied = e :: rest → e.checked = true →
      ∀ b, checkRegionEpoch e.request s.delegate b = .ok ()) ∧
    (∀ event, ∃ result, Leader.step term s event = .ok result) ∧
    s.checker.proposedAdminCmd.length ≤ 2 := by
  have hinv : Inv term s := hrun.invariant (fun _ _ _ h => h.step) hinit.inv
  refine ⟨?_, ?_, hinv.length_le⟩
  · intro e rest hunapplied hchecked
    exact hinv.passes e (hunapplied ▸ mem_cons_self) hchecked
  · intro event
    obtain ⟨result, hresult, -⟩ := hinv.step_ok event
    exact ⟨result, hresult⟩

/-- A leader of one region, over numbers as keys, at the start of term 6. -/
def newLeader : Leader ℕ :=
  let region : Region ℕ :=
    { id := 1, startKey := 0, endKey := 0, regionEpoch := { confVer := 1, version := 1 }
      peers := [{ id := 2, storeId := 1 }] }
  { checker := {}, region, delegate := region, applied := [], unapplied := [], lastIndex := 5 }

/-- A split and a change of peers are proposed, and the split is applied. -/
def splitAndChangePeer : List (LeaderEvent ℕ) :=
  let epoch := some { confVer := 1, version := 1 }
  [.propose ⟨epoch, false, none, some (.batchSplit ⟨[⟨5, 3, [4]⟩], true⟩)⟩ 6 1,
    .propose ⟨epoch, false, none, some (.changePeer ⟨.addNode, { id := 7, storeId := 2 }⟩)⟩ 7 2,
    .apply ⟨1, 1, 6, 0, fun _ => none, false⟩,
    .postApply 1]

/-- The state after some events, as far as they are possible. -/
def run (term : ℕ) (s : Leader ℕ) : List (LeaderEvent ℕ) → Leader ℕ
  | [] => s
  | event :: events =>
    match step term s event with
    | .ok (some (t, _)) => run term t events
    | _ => s

theorem proposal_passes_epoch_check_splitAndChangePeer :
    (run 6 newLeader splitAndChangePeer).unapplied ≠ [] ∧
    ∀ e rest, (run 6 newLeader splitAndChangePeer).unapplied = e :: rest → e.checked = true →
      ∀ b, checkRegionEpoch e.request (run 6 newLeader splitAndChangePeer).delegate b = .ok () := by
  have hinit : Initial 6 newLeader := by
    constructor
    all_goals simp [newLeader, entries]
  have hrun : Exec (Step 6) newLeader splitAndChangePeer (run 6 newLeader splitAndChangePeer) :=
    .cons ⟨_, rfl⟩ (.cons ⟨_, rfl⟩ (.cons ⟨_, rfl⟩ (.cons ⟨_, rfl⟩ (.nil _))))
  exact ⟨by decide, (proposal_passes_epoch_check 6 _ _ _ hinit hrun).1⟩

end Leader

end Tikv.Raftstore
