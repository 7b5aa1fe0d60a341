import Mathlib.Order.Bounds.Basic
import Tikv.Kv.CursorView

/-!
# A cursor after any calls

A cursor keeps `minKey` and `maxKey`, which answer later seeks without moving it, and a near seek
starts from wherever the last call has left it. Whatever has been called before, a seek of a `mixed`
cursor without prefix seek is determined by the data alone. `seek` and `nearSeek` find a key exactly
when one is at or above the target and then stand on the least such key (**`SeeksUp`**);
`seekForPrev` and `nearSeekForPrev` do the same downward (**`SeeksDown`**).

What makes it true is that a recorded bound is a true bound (`Bounded`), which every call keeps.
A call of `next` or `prev` on an invalid iterator is refused by the source; here it leaves the
cursor where it is.
-/

namespace Tikv

open Option

namespace Cursor

variable {κ α : Type} [LinearOrder κ]

/-- `Cursor::new`. -/
def new (data : List (κ × α)) (sorted : data.Pairwise fun a b => a.1 < b.1) (mode : ScanMode)
    (prefixSeek : Bool) : Cursor κ α :=
  { data, sorted, scanMode := mode, prefixSeek }

/-- The keys the cursor can see. -/
def keys (c : Cursor κ α) : Set κ := {k | ∃ v, (k, v) ∈ c.data}

variable {c c' : Cursor κ α} {k : κ} {r : Except Panic (Bool × Cursor κ α)}

/-! ### Recorded bounds -/

/-- A cursor in mixed mode without prefix seek whose recorded bounds are bounds of its keys. -/
structure Bounded (c : Cursor κ α) : Prop where
  mode : c.scanMode = .mixed
  noPrefix : c.prefixSeek = false
  max : ∀ m ∈ c.maxKey, ∀ x ∈ c.keys, x < m
  min : ∀ m ∈ c.minKey, ∀ x ∈ c.keys, m < x

/-- `c'` is `c` at another position. -/
structure Moved (c c' : Cursor κ α) : Prop where
  data : c'.data = c.data
  mode : c'.scanMode = c.scanMode
  noPrefix : c'.prefixSeek = c.prefixSeek
  maxKey : c'.maxKey = c.maxKey
  minKey : c'.minKey = c.minKey

theorem Moved.keys (h : Moved c c') : c'.keys = c.keys := by rw [Cursor.keys, Cursor.keys, h.data]

theorem Bounded.moved (h : c.Bounded) (hm : Moved c c') : c'.Bounded where
  mode := hm.mode.trans h.mode
  noPrefix := hm.noPrefix.trans h.noPrefix
  max := by rw [hm.maxKey, hm.keys]; exact h.max
  min := by rw [hm.minKey, hm.keys]; exact h.min

theorem mem_keys_of_current {e : κ × α} (h : c.current = some e) : e.1 ∈ c.keys :=
  ⟨e.2, mem_of_current h⟩

theorem exists_get_of_mem_keys {x : κ} (h : x ∈ c.keys) :
    ∃ i : Fin c.data.length, (c.data.get i).1 = x := by
  obtain ⟨v, hv⟩ := h
  obtain ⟨i, hi⟩ := List.get_of_mem hv
  exact ⟨i, by rw [hi]⟩

theorem get_mem_keys (i : Fin c.data.length) : (c.data.get i).1 ∈ c.keys :=
  ⟨(c.data.get i).2, List.get_mem _ _⟩

theorem get_le_get {i j : Fin c.data.length} (h : i ≤ j) : (c.data.get i).1 ≤ (c.data.get j).1 := by
  rcases h.eq_or_lt with rfl | hlt
  · exact le_rfl
  · exact (List.pairwise_iff_getElem.mp c.sorted _ _ _ _ hlt).le

/-! ### Towards larger keys -/

/-- What a seek of `k` towards larger keys answers: it finds a key exactly when there is one, and
then stands on the least. -/
structure SeeksUp (c : Cursor κ α) (k : κ) (found : Bool) (c' : Cursor κ α) : Prop where
  data : c'.data = c.data
  found_iff : found = true ↔ (c.keys ∩ Set.Ici k).Nonempty
  lands : found = true →
    ∃ e ∈ c.data, c'.current = some e ∧ IsLeast (c.keys ∩ Set.Ici k) e.1

/-- The engine's seek lands on the least key at or above its target. -/
theorem current_internalSeek :
    (∃ e ∈ c.data, (c.internalSeek k).current = some e ∧ IsLeast (c.keys ∩ Set.Ici k) e.1) ∨
      (c.internalSeek k).pos = none ∧ ∀ x ∈ c.keys, x < k := by
  rcases Nat.lt_or_ge (c.below k) c.data.length with hl | hl
  · refine Or.inl ⟨c.data.get ⟨c.below k, hl⟩, List.get_mem _ _, ?_, ⟨get_mem_keys _, ?_⟩, ?_⟩
    · rw [current, internalSeek, pos_goto hl]
      rfl
    · exact not_lt.mp fun hlt => lt_irrefl _ ((lt_below_iff hl).mpr hlt)
    · rintro x ⟨hx, hkx⟩
      obtain ⟨i, rfl⟩ := exists_get_of_mem_keys hx
      have hi : ¬ (i : ℕ) < c.below k := fun h =>
        absurd ((lt_below_iff i.isLt).mp h) (not_lt.mpr hkx)
      exact get_le_get (Fin.le_def.mpr (not_lt.mp hi))
  · refine Or.inr ⟨posOf_of_le hl, fun x hx => ?_⟩
    obtain ⟨i, rfl⟩ := exists_get_of_mem_keys hx
    exact (lt_below_iff i.isLt).mp (i.isLt.trans_le hl)

theorem SeeksUp.none (hdata : c'.data = c.data) (h : ∀ x ∈ c.keys, x < k) :
    c.SeeksUp k false c' where
  data := hdata
  found_iff := ⟨nofun, fun ⟨x, hx, hkx⟩ => absurd (h x hx) (not_lt.mpr hkx)⟩
  lands := nofun

section

variable (h : c.Bounded)
include h

/-- The end of a seek towards larger keys. -/
theorem seeksUp_finishSeek :
    ∃ found c', (c.internalSeek k).finishSeek k = .ok (found, c') ∧ c'.Bounded ∧
      c.SeeksUp k found c' := by
  have hmoved : Moved c (c.internalSeek k) := ⟨rfl, rfl, rfl, rfl, rfl⟩
  have hb : (c.internalSeek k).Bounded := h.moved hmoved
  rw [finishSeek, valid]
  rcases current_internalSeek (c := c) (k := k) with ⟨e, he, hcur, hleast⟩ | ⟨hpos, hlt⟩
  · obtain ⟨j, hj, -⟩ := map_eq_some_iff.mp hcur
    rw [hj, isSome_some]
    exact ⟨true, _, rfl, hb, rfl, ⟨fun _ => ⟨_, hleast.1⟩, fun _ => rfl⟩,
      fun _ => ⟨e, he, hcur, hleast⟩⟩
  · rw [hpos, isSome_none, recordMax, hb.noPrefix]
    refine ⟨false, _, rfl, ⟨hb.mode, rfl, ?_, hb.min⟩, .none rfl hlt⟩
    intro m hm x hx
    obtain rfl := some.inj hm
    exact hlt x hx

theorem Bounded.open_or (k : κ) :
    c.Open k ∨ c.maxKey.any (· ≤ k) = true ∧ ∀ x ∈ c.keys, x < k := by
  by_cases hany : c.maxKey.any (· ≤ k) = true
  · obtain ⟨m, hm, hle⟩ := (any_eq_true _ _).mp hany
    exact Or.inr ⟨hany, fun x hx => (h.max m hm x hx).trans_le (of_decide_eq_true hle)⟩
  · refine Or.inl fun m hm => not_le.mp fun hle => hany ?_
    exact (any_eq_true _ _).mpr ⟨m, hm, decide_eq_true hle⟩

theorem Bounded.seek (k : κ) :
    ∃ found c', c.seek k = .ok (found, c') ∧ c'.Bounded ∧ c.SeeksUp k found c' := by
  have hmode : c.scanMode ≠ .backward := by rw [h.mode]; decide
  have hpast : c.NotPast k := fun hf => by rw [h.mode] at hf; cases hf
  rcases h.open_or k with ho | ⟨hclosed, hlt⟩
  · rw [seek_eq hmode ho hpast]
    exact seeksUp_finishSeek h
  · rw [Cursor.seek, if_neg hmode, if_pos hclosed]
    exact ⟨false, c, rfl, h, .none rfl hlt⟩

/-- A near seek answers as a seek, from any position. -/
theorem Bounded.nearSeek (k : κ) :
    ∃ found c', c.nearSeek k = .ok (found, c') ∧ c'.Bounded ∧ c.SeeksUp k found c' := by
  have hmode : c.scanMode ≠ .backward := by rw [h.mode]; decide
  have hpast : c.NotPast k := fun hf => by rw [h.mode] at hf; cases hf
  rcases h.open_or k with ho | ⟨hclosed, hlt⟩
  · rw [nearSeek_eq hmode ho hpast]
    exact seeksUp_finishSeek h
  · rw [Cursor.nearSeek, if_neg hmode]
    cases hcur : c.current with
    | none => exact h.seek k
    | some e =>
      -- The cursor stands on a key below the bound, so on a key below the target.
      have he : e.1 < k := hlt _ (mem_keys_of_current hcur)
      have hnot : ¬ (e.1 = k ∨ c.scanMode = .forward ∧ k < e.1) := by
        rintro (heq | ⟨hf, -⟩)
        · exact he.ne heq
        · rw [h.mode] at hf
          cases hf
      dsimp only
      rw [if_neg hnot, if_pos hclosed]
      exact ⟨false, c, rfl, h, .none rfl hlt⟩

/-! ### Towards smaller keys -/

/-- What a seek of `k` towards smaller keys answers: it finds a key exactly when there is one, and
then stands on the greatest. -/
structure SeeksDown (c : Cursor κ α) (k : κ) (found : Bool) (c' : Cursor κ α) : Prop where
  data : c'.data = c.data
  found_iff : found = true ↔ (c.keys ∩ Set.Iic k).Nonempty
  lands : found = true →
    ∃ e ∈ c.data, c'.current = some e ∧ IsGreatest (c.keys ∩ Set.Iic k) e.1

omit h in
/-- The engine's seek lands on the greatest key at or below its target. -/
theorem current_internalSeekForPrev :
    (∃ e ∈ c.data, (c.internalSeekForPrev k).current = some e ∧
        IsGreatest (c.keys ∩ Set.Iic k) e.1) ∨
      (c.internalSeekForPrev k).pos = none ∧ ∀ x ∈ c.keys, k < x := by
  have hle := upTo_le_length (c := c) (k := k)
  cases hu : c.upTo k with
  | zero =>
    refine Or.inr ⟨by rw [internalSeekForPrev, hu]; rfl, fun x hx => ?_⟩
    obtain ⟨i, rfl⟩ := exists_get_of_mem_keys hx
    refine not_le.mp fun hxk => ?_
    have := (lt_upTo_iff i.isLt).mpr hxk
    omega
  | succ n =>
    have hn : n < c.data.length := by omega
    refine Or.inl ⟨c.data.get ⟨n, hn⟩, List.get_mem _ _, ?_, ⟨get_mem_keys _, ?_⟩, ?_⟩
    · rw [internalSeekForPrev, hu]
      change (posOf c.data n).map c.data.get = _
      rw [posOf_of_lt hn]
      rfl
    · exact (lt_upTo_iff hn).mp (by omega)
    · rintro x ⟨hx, hxk⟩
      obtain ⟨i, rfl⟩ := exists_get_of_mem_keys hx
      have hi := (lt_upTo_iff i.isLt).mpr hxk
      exact get_le_get (Fin.le_def.mpr (by dsimp only; omega))

omit h in
theorem SeeksDown.none (hdata : c'.data = c.data) (h : ∀ x ∈ c.keys, k < x) :
    c.SeeksDown k false c' where
  data := hdata
  found_iff := ⟨nofun, fun ⟨x, hx, hxk⟩ => absurd (h x hx) (not_lt.mpr hxk)⟩
  lands := nofun

/-- The end of a seek towards smaller keys. -/
theorem seeksDown_finishSeekForPrev :
    ∃ found c', (c.internalSeekForPrev k).finishSeekForPrev k = .ok (found, c') ∧ c'.Bounded ∧
      c.SeeksDown k found c' := by
  have hmoved : Moved c (c.internalSeekForPrev k) := ⟨rfl, rfl, rfl, rfl, rfl⟩
  have hb : (c.internalSeekForPrev k).Bounded := h.moved hmoved
  rw [finishSeekForPrev, valid]
  rcases current_internalSeekForPrev (c := c) (k := k) with ⟨e, he, hcur, hgreatest⟩ | ⟨hpos, hlt⟩
  · obtain ⟨j, hj, -⟩ := map_eq_some_iff.mp hcur
    rw [hj, isSome_some]
    exact ⟨true, _, rfl, hb, rfl, ⟨fun _ => ⟨_, hgreatest.1⟩, fun _ => rfl⟩,
      fun _ => ⟨e, he, hcur, hgreatest⟩⟩
  · rw [hpos, isSome_none, recordMin, hb.noPrefix]
    refine ⟨false, _, rfl, ⟨hb.mode, rfl, hb.max, ?_⟩, .none rfl hlt⟩
    intro m hm x hx
    obtain rfl := some.inj hm
    exact hlt x hx

theorem Bounded.openBelow_or (k : κ) :
    c.OpenBelow k ∨ c.minKey.any (k ≤ ·) = true ∧ ∀ x ∈ c.keys, k < x := by
  by_cases hany : c.minKey.any (k ≤ ·) = true
  · obtain ⟨m, hm, hle⟩ := (any_eq_true _ _).mp hany
    exact Or.inr ⟨hany, fun x hx => (of_decide_eq_true hle).trans_lt (h.min m hm x hx)⟩
  · refine Or.inl fun m hm => not_le.mp fun hle => hany ?_
    exact (any_eq_true _ _).mpr ⟨m, hm, decide_eq_true hle⟩

theorem Bounded.seekForPrev (k : κ) :
    ∃ found c', c.seekForPrev k = .ok (found, c') ∧ c'.Bounded ∧ c.SeeksDown k found c' := by
  have hmode : c.scanMode ≠ .forward := by rw [h.mode]; decide
  rcases h.openBelow_or k with ho | ⟨hclosed, hlt⟩
  · rw [seekForPrev_eq h.mode ho]
    exact seeksDown_finishSeekForPrev h
  · rw [Cursor.seekForPrev, if_neg hmode, if_pos hclosed]
    exact ⟨false, c, rfl, h, .none rfl hlt⟩

/-- The same towards smaller keys. -/
theorem Bounded.nearSeekForPrev (k : κ) :
    ∃ found c', c.nearSeekForPrev k = .ok (found, c') ∧ c'.Bounded ∧ c.SeeksDown k found c' := by
  have hmode : c.scanMode ≠ .forward := by rw [h.mode]; decide
  rcases h.openBelow_or k with ho | ⟨hclosed, hlt⟩
  · rw [nearSeekForPrev_eq h.mode ho]
    exact seeksDown_finishSeekForPrev h
  · rw [Cursor.nearSeekForPrev, if_neg hmode]
    cases hcur : c.current with
    | none => exact h.seekForPrev k
    | some e =>
      have he : k < e.1 := hlt _ (mem_keys_of_current hcur)
      have hnot : ¬ (e.1 = k ∨ c.scanMode = .backward ∧ e.1 < k) := by
        rintro (heq | ⟨hb, -⟩)
        · exact he.ne' heq
        · rw [h.mode] at hb
          cases hb
      dsimp only
      rw [if_neg hnot, if_pos hclosed]
      exact ⟨false, c, rfl, h, .none rfl hlt⟩

/-! ### Point reads -/

omit h in
theorem eq_of_mem_data {e : κ × α} {v : α} (he : e ∈ c.data) (hv : (e.1, v) ∈ c.data) :
    e = (e.1, v) := by
  have hnodup : (c.data.map Prod.fst).Nodup := List.pairwise_map.mpr (c.sorted.imp fun h => h.ne)
  exact List.inj_on_of_nodup_map hnodup he hv rfl

/-- `get` finds what is there. -/
theorem Bounded.get (k : κ) :
    ∃ value c', c.get k = .ok (value, c') ∧ c'.data = c.data ∧ c'.Bounded ∧
      ∀ v, value = some v ↔ (k, v) ∈ c.data := by
  have hmode : c.scanMode ≠ .backward := by rw [h.mode]; decide
  obtain ⟨found, c', hseek, hb, hup⟩ := h.nearSeek k
  have habsent : (∀ e, c'.current = some e → ¬ (found = true ∧ e.1 = k)) →
      ∀ v, (k, v) ∉ c.data := by
    intro hnone v hv
    have hfound : found = true := hup.found_iff.mpr ⟨k, ⟨v, hv⟩, Set.self_mem_Ici⟩
    obtain ⟨e, -, hcur, hleast⟩ := hup.lands hfound
    exact hnone e hcur ⟨hfound, le_antisymm (hleast.2 ⟨⟨v, hv⟩, Set.self_mem_Ici⟩) hleast.1.2⟩
  rw [Cursor.get, if_pos hmode, hseek, ok_bind]
  dsimp only
  cases hcur : c'.current with
  | none =>
    exact ⟨none, c', rfl, hup.data, hb, fun v => ⟨nofun, fun hv =>
      absurd hv (habsent (fun e he => by rw [hcur] at he; cases he) v)⟩⟩
  | some e =>
    refine ⟨if found ∧ e.1 = k then some e.2 else none, c', rfl, hup.data, hb, ?_⟩
    intro v
    by_cases hfound : found = true ∧ e.1 = k
    · rw [if_pos hfound, ← hfound.2]
      have he : e ∈ c.data := hup.data ▸ mem_of_current hcur
      exact ⟨fun hv => some.inj hv ▸ he, fun hv => by rw [eq_of_mem_data he hv]⟩
    · rw [if_neg hfound]
      refine ⟨nofun, fun hv => absurd hv (habsent (fun e' he' => ?_) v)⟩
      rw [hcur] at he'
      exact some.inj he' ▸ hfound

/-! ### Runs -/

/-- A call on a cursor. -/
inductive Call (κ : Type)
  | seek (k : κ)
  | nearSeek (k : κ)
  | seekForPrev (k : κ)
  | nearSeekForPrev (k : κ)
  | next
  | prev
  | get (k : κ)

/-- The cursor after a call. -/
def Call.run (c : Cursor κ α) : Call κ → Except Panic (Cursor κ α)
  | seek k => Prod.snd <$> c.seek k
  | nearSeek k => Prod.snd <$> c.nearSeek k
  | seekForPrev k => Prod.snd <$> c.seekForPrev k
  | nearSeekForPrev k => Prod.snd <$> c.nearSeekForPrev k
  | next => .ok c.next
  | prev => .ok c.prev
  | get k => Prod.snd <$> c.get k

/-- **Every call keeps the recorded bounds.** -/
theorem Bounded.run (call : Call κ) :
    ∃ c', call.run c = .ok c' ∧ c'.data = c.data ∧ c'.Bounded := by
  cases call with
  | seek k =>
    obtain ⟨found, c', hseek, hb, hup⟩ := h.seek k
    exact ⟨c', by rw [Call.run, hseek]; rfl, hup.data, hb⟩
  | nearSeek k =>
    obtain ⟨found, c', hseek, hb, hup⟩ := h.nearSeek k
    exact ⟨c', by rw [Call.run, hseek]; rfl, hup.data, hb⟩
  | seekForPrev k =>
    obtain ⟨found, c', hseek, hb, hdown⟩ := h.seekForPrev k
    exact ⟨c', by rw [Call.run, hseek]; rfl, hdown.data, hb⟩
  | nearSeekForPrev k =>
    obtain ⟨found, c', hseek, hb, hdown⟩ := h.nearSeekForPrev k
    exact ⟨c', by rw [Call.run, hseek]; rfl, hdown.data, hb⟩
  | next => exact ⟨c.next, rfl, rfl, h.moved ⟨rfl, rfl, rfl, rfl, rfl⟩⟩
  | prev => exact ⟨c.prev, rfl, rfl, h.moved ⟨rfl, rfl, rfl, rfl, rfl⟩⟩
  | get k =>
    obtain ⟨value, c', hget, hdata, hb, -⟩ := h.get k
    exact ⟨c', by rw [Call.run, hget]; rfl, hdata, hb⟩

theorem Bounded.runs (calls : List (Call κ)) :
    ∃ c', calls.foldlM Call.run c = .ok c' ∧ c'.data = c.data ∧ c'.Bounded := by
  refine exists_foldlM_ok (I := fun _ (c' : Cursor κ α) => c'.data = c.data ∧ c'.Bounded)
    ⟨rfl, h⟩ ?_
  intro _ call _ c₁ _ h₁
  obtain ⟨c₂, hrun, hdata, hb⟩ := h₁.2.run call
  exact ⟨c₂, hrun, hdata.trans h₁.1, hb⟩

end

/-- **A cursor answers by its data alone.** After any calls on a new mixed cursor without prefix
seek, none of which fails an assertion, `seek` and `nearSeek` find the least key at or above their
target, `seekForPrev` and `nearSeekForPrev` the greatest key at or below it, and `get` the value of
its key. -/
theorem seeks_after_calls (data : List (κ × α)) (sorted : data.Pairwise fun a b => a.1 < b.1)
    (calls : List (Call κ)) :
    ∃ c, calls.foldlM Call.run (new data sorted .mixed false) = .ok c ∧ c.data = data ∧ ∀ k,
      (∃ found c', c.seek k = .ok (found, c') ∧ c.SeeksUp k found c') ∧
      (∃ found c', c.nearSeek k = .ok (found, c') ∧ c.SeeksUp k found c') ∧
      (∃ found c', c.seekForPrev k = .ok (found, c') ∧ c.SeeksDown k found c') ∧
      (∃ found c', c.nearSeekForPrev k = .ok (found, c') ∧ c.SeeksDown k found c') ∧
      ∃ value c', c.get k = .ok (value, c') ∧ ∀ v, value = some v ↔ (k, v) ∈ data := by
  have hnew : (new data sorted .mixed false).Bounded := ⟨rfl, rfl, nofun, nofun⟩
  obtain ⟨c, hruns, hdata, hb⟩ := hnew.runs calls
  have hdata : c.data = data := hdata
  refine ⟨c, hruns, hdata, fun k => ?_⟩
  obtain ⟨found₁, c₁, hseek, -, h₁⟩ := hb.seek k
  obtain ⟨found₂, c₂, hnearSeek, -, h₂⟩ := hb.nearSeek k
  obtain ⟨found₃, c₃, hseekForPrev, -, h₃⟩ := hb.seekForPrev k
  obtain ⟨found₄, c₄, hnearSeekForPrev, -, h₄⟩ := hb.nearSeekForPrev k
  obtain ⟨value, c₅, hget, -, -, h₅⟩ := hb.get k
  exact ⟨⟨found₁, c₁, hseek, h₁⟩, ⟨found₂, c₂, hnearSeek, h₂⟩, ⟨found₃, c₃, hseekForPrev, h₃⟩,
    ⟨found₄, c₄, hnearSeekForPrev, h₄⟩, value, c₅, hget, fun v => hdata ▸ h₅ v⟩

theorem seeks_after_calls_up_and_down :
    ∃ c, [Call.nearSeek 2, .seekForPrev 0].foldlM Call.run
        (new [(1, "a"), (3, "b")] (by decide) .mixed false) = .ok c ∧
      ∃ found c', c.nearSeek 2 = .ok (found, c') ∧ c.SeeksUp 2 found c' := by
  obtain ⟨c, hruns, -, hseeks⟩ := seeks_after_calls [(1, "a"), (3, "b")] (by decide)
    [.nearSeek 2, .seekForPrev 0]
  exact ⟨c, hruns, (hseeks 2).2.1⟩

end Cursor

end Tikv
