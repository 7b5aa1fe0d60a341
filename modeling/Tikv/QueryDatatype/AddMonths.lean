import Tikv.QueryDatatype.Time

/-!
# Adding months to a date

`Time::add_months` turns a number of months into years by hand, in 64-bit arithmetic that wraps.
For every such number the result is calendar arithmetic on the month number `year * 12 + month - 1`
(**`addMonths_calendar`**): what wraps is far beyond the year 9999, and stays there.
-/

namespace Tikv.QueryDatatype

namespace Time

/-- The value of an `i64` operation. -/
def wrapI64 (x : ℤ) : ℤ := (x + 2 ^ 63) % 2 ^ 64 - 2 ^ 63

/-- How `add_months` fails. -/
inductive AddMonthsFault
  | datetimeFunctionOverflow
  /-- an index out of the table of month lengths -/
  | indexOutOfBounds
  deriving DecidableEq

/-- `DAY_NUM_IN_MONTH` and `DAY_NUM_IN_MONTH_LEAP_YEAR`. -/
def dayNumInMonth (leap : Bool) : List ℕ :=
  [31, if leap then 29 else 28, 31, 30, 31, 30, 31, 31, 30, 31, 30, 31]

/-- The year and the month, from zero on, after `currentMonth` months of `currentYear`. -/
def carryMonths (currentYear currentMonth : ℤ) : ℤ × ℤ :=
  if 0 ≤ currentMonth then
    (wrapI64 (currentYear + currentMonth.tdiv 12), currentMonth.tmod 12)
  else
    let negMonth := wrapI64 (-currentMonth)
    let yearDecrease := negMonth.tdiv 12 + if negMonth.tmod 12 ≠ 0 then 1 else 0
    (wrapI64 (currentYear - yearDecrease),
      wrapI64 (currentMonth + wrapI64 (yearDecrease * 12)))

/-- `Time::add_months`: the result, and the value afterwards. -/
def addMonths (t : Time) (months : ℤ) : Except AddMonthsFault Unit × Time :=
  let (currentYear, currentMonth) := carryMonths t.year (wrapI64 (t.month - 1 + months))
  if ¬ (0 ≤ currentYear ∧ currentYear ≤ 9999) then (.error .datetimeFunctionOverflow, t)
  else if currentYear = 0 then (.ok (), { t with year := 0, month := 0, day := 0 })
  else
    let year := currentYear.toNat
    match (dayNumInMonth (isLeapYear year))[(currentMonth % 2 ^ 64).toNat]? with
    | none => (.error .indexOutOfBounds, { t with year })
    | some maxDay =>
      (.ok (), { t with year, month := (currentMonth + 1).toNat, day := min t.day maxDay })

/-- The months from the beginning of the year zero on. -/
def monthNumber (t : Time) : ℤ := t.year * 12 + t.month - 1

/-- The day of `t` in month number `n`. -/
def atMonth (t : Time) (n : ℤ) : Time :=
  let year := (n / 12).toNat
  let month := (n % 12 + 1).toNat
  { t with year, month, day := min t.day (lastDayOfMonth year month) }

/-- The calendar says what month number `n` stands for. -/
def toMonth (t : Time) (n : ℤ) : Except AddMonthsFault Unit × Time :=
  if 12 ≤ n ∧ n < 120000 then (.ok (), t.atMonth n)
  else if 0 ≤ n ∧ n < 12 then (.ok (), { t with year := 0, month := 0, day := 0 })
  else (.error .datetimeFunctionOverflow, t)

/-- Away from the ends of `i64` the division is the one of the integers. -/
theorem carryMonths_spec {year month : ℤ} (hyear : 1 ≤ year ∧ year ≤ 9999)
    (hlo : -2 ^ 63 < month) (hhi : month < 2 ^ 63) :
    carryMonths year month = (year + month / 12, month % 12) := by
  unfold carryMonths
  split_ifs with hm
  · rw [Int.tdiv_eq_ediv_of_nonneg hm, Int.tmod_eq_emod_of_nonneg hm, wrapI64]
    congr 1
    omega
  · have hneg : wrapI64 (-month) = -month := by
      rw [wrapI64]
      omega
    have hpos : 0 ≤ -month := by omega
    rw [hneg]
    dsimp only
    rw [Int.tdiv_eq_ediv_of_nonneg hpos, Int.tmod_eq_emod_of_nonneg hpos]
    simp only [wrapI64]
    split_ifs <;> refine Prod.ext ?_ ?_ <;> dsimp only <;> omega

/-- The months that wrap, and the smallest number of months, do not give a year of the calendar. -/
theorem carryMonths_far {year : ℤ} (hyear : 1 ≤ year ∧ year ≤ 9999) (month : ℤ)
    (hlo : -2 ^ 63 ≤ month) (hhi : month < -2 ^ 63 + 12) :
    ¬ (0 ≤ (carryMonths year month).1 ∧ (carryMonths year month).1 ≤ 9999) := by
  rcases hlo.eq_or_lt with rfl | hlo
  · -- The smallest number is its own negation.
    have hneg : (carryMonths year (-2 ^ 63)).1 = wrapI64 (year + 768614336404564649) := rfl
    rw [hneg, wrapI64]
    omega
  · rw [carryMonths_spec hyear hlo (by omega)]
    dsimp only
    omega

theorem getElem?_dayNumInMonth {year : ℕ} {month : ℤ} (hlo : 0 ≤ month) (hhi : month < 12) :
    (dayNumInMonth (isLeapYear year))[(month % 2 ^ 64).toNat]? =
      some (lastDayOfMonth year (month + 1).toNat) := by
  unfold lastDayOfMonth dayNumInMonth
  cases isLeapYear year <;> interval_cases month <;> rfl

variable {t t₁ t₂ : Time} {months : ℤ}

/-- What wraps is an overflow on the calendar too. -/
theorem addMonths_eq (hyear : 1 ≤ t.year ∧ t.year ≤ 9999) (ht : t.OnCalendar)
    (hmonths : -2 ^ 63 ≤ months ∧ months < 2 ^ 63) :
    t.addMonths months = t.toMonth (t.monthNumber + months) := by
  generalize hn : t.monthNumber + months = n
  have hmonth := ht.month_pos
  have hmonth' := ht.month_le
  have hyear' : 1 ≤ (t.year : ℤ) ∧ (t.year : ℤ) ≤ 9999 := by omega
  rw [monthNumber] at hn
  rw [addMonths, toMonth]
  by_cases hfar : -2 ^ 63 < t.month - 1 + months ∧ t.month - 1 + months < 2 ^ 63
  · have hwrap : wrapI64 (t.month - 1 + months) = t.month - 1 + months := by
      rw [wrapI64]
      omega
    have hdiv : t.year + (t.month - 1 + months) / 12 = n / 12 := by omega
    have hmod : (t.month - 1 + months) % 12 = n % 12 := by omega
    rw [hwrap, carryMonths_spec hyear' hfar.1 hfar.2, hdiv, hmod]
    dsimp only
    rw [getElem?_dayNumInMonth (by omega) (by omega)]
    split_ifs <;> first | rfl | omega
  · have herr := carryMonths_far hyear' (wrapI64 (t.month - 1 + months))
      (by rw [wrapI64]; omega) (by rw [wrapI64]; omega)
    dsimp only
    rw [if_pos herr, if_neg (by omega), if_neg (by omega)]

theorem addMonths_eq_ok (hyear : 1 ≤ t.year ∧ t.year ≤ 9999) (ht : t.OnCalendar)
    (hmonths : -2 ^ 63 ≤ months ∧ months < 2 ^ 63) (h : t.addMonths months = (.ok (), t₁))
    (h₁ : 1 ≤ t₁.year) :
    12 ≤ t.monthNumber + months ∧ t.monthNumber + months < 120000 ∧
      t₁ = t.atMonth (t.monthNumber + months) := by
  rw [addMonths_eq hyear ht hmonths, toMonth] at h
  split_ifs at h with hn hzero
  · exact ⟨hn.1, hn.2, (Prod.mk.inj h).2.symm⟩
  · cases h
    cases h₁
  · cases h

theorem onCalendar_atMonth {n : ℤ} (ht : t.OnCalendar) : (t.atMonth n).OnCalendar :=
  { ht with
    month_pos := by simp only [atMonth]; omega
    month_le := by simp only [atMonth]; omega
    day_pos := le_min ht.day_pos (le_trans (by decide) (lastDayOfMonth_ge _ _))
    day_le := min_le_right _ _ }

theorem monthNumber_atMonth {n : ℤ} (hn : 0 ≤ n) : (t.atMonth n).monthNumber = n := by
  simp only [monthNumber, atMonth]
  omega

/-- A day that every month has is kept. -/
theorem atMonth_atMonth (hday : t.day ≤ 28) (n n' : ℤ) :
    (t.atMonth n).atMonth n' = t.atMonth n' := by
  simp only [atMonth, min_eq_left (hday.trans (lastDayOfMonth_ge _ _))]

/-- **Adding months is calendar arithmetic**, and days that every month has are kept by it. -/
theorem addMonths_calendar (t : Time) (hyear : 1 ≤ t.year ∧ t.year ≤ 9999) (ht : t.OnCalendar) :
    (∀ months : ℤ, -2 ^ 63 ≤ months ∧ months < 2 ^ 63 →
      t.addMonths months = t.toMonth (t.monthNumber + months)) ∧
    (t.day ≤ 28 → ∀ m k : ℤ, -2 ^ 63 ≤ m ∧ m < 2 ^ 63 → -2 ^ 63 ≤ k ∧ k < 2 ^ 63 →
      ∀ t₁ t₂ : Time, t.addMonths m = (.ok (), t₁) → 1 ≤ t₁.year →
        t₁.addMonths k = (.ok (), t₂) → 1 ≤ t₂.year →
        t.addMonths (wrapI64 (m + k)) = (.ok (), t₂)) := by
  refine ⟨fun months hmonths => addMonths_eq hyear ht hmonths, ?_⟩
  intro hday m k hm hk t₁ t₂ h₁ hy₁ h₂ hy₂
  obtain ⟨hlo₁, hhi₁, rfl⟩ := addMonths_eq_ok hyear ht hm h₁ hy₁
  obtain ⟨hlo₂, hhi₂, rfl⟩ := addMonths_eq_ok ⟨hy₁, by simp only [atMonth]; omega⟩
    (onCalendar_atMonth ht) hk h₂ hy₂
  rw [monthNumber_atMonth (by omega)] at hlo₂ hhi₂ ⊢
  have hn : 12 ≤ t.monthNumber ∧ t.monthNumber < 120000 := by
    have := ht.month_pos
    have := ht.month_le
    rw [monthNumber]
    omega
  have hwrap : wrapI64 (m + k) = m + k := by
    rw [wrapI64]
    omega
  rw [hwrap, addMonths_eq hyear ht (by omega), toMonth, ← add_assoc, if_pos ⟨hlo₂, hhi₂⟩,
    atMonth_atMonth hday]

/-- A leap day a year later, and a day that every month has, three months later and one back. -/
theorem addMonths_calendar_leapYear :
    addMonths ⟨2024, 2, 29, 10, 0, 0, 0, 0, .dateTime⟩ 12 =
      (.ok (), ⟨2025, 2, 28, 10, 0, 0, 0, 0, .dateTime⟩) ∧
    addMonths ⟨2024, 2, 28, 10, 0, 0, 0, 0, .dateTime⟩ (wrapI64 (3 + -1)) =
      (.ok (), ⟨2024, 4, 28, 10, 0, 0, 0, 0, .dateTime⟩) := by
  constructor
  · rw [(addMonths_calendar _ (by decide) (by decide)).1 12 (by decide)]
    decide
  · exact (addMonths_calendar _ (by decide) (by decide)).2 (by decide) 3 (-1) (by decide)
      (by decide) ⟨2024, 5, 28, 10, 0, 0, 0, 0, .dateTime⟩ _ (by decide) (by decide) (by decide)
      (by decide)

end Time

end Tikv.QueryDatatype
