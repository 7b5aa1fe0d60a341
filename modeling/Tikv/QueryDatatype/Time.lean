import Mathlib.Algebra.BigOperators.Intervals
import Mathlib.Tactic.IntervalCases
import Tikv.Foundation.Fallible

/-!
# Rounding a date time

`Time::round_frac` rounds the microseconds of a date time to `fsp` digits. A carry goes through the
seconds, the hours and the calendar, and the new components are checked again. The result is
the multiple of `10 ^ (6 - fsp)` microseconds that is nearest on the time line, ties upwards
(**`roundFrac_exact`**). A carry cannot leave the year zero: the last half second of
`0000-12-31` is rounded to the zero time (`roundFrac_year_zero`).
-/

namespace Tikv.QueryDatatype

open Finset

/-! ## The calendar -/

def isLeapYear (year : ℕ) : Bool :=
  year % 4 == 0 && (year % 100 != 0 || year % 400 == 0)

def lastDayOfMonth (year : ℕ) : ℕ → ℕ
  | 4 | 6 | 9 | 11 => 30
  | 2 => (isLeapYear year).toNat + 28
  | _ => 31

inductive TimeType
  | date
  | dateTime
  | timestamp
  deriving DecidableEq

/-- `Time`, and the `TimeArgs` it is made of. -/
structure Time where
  year : ℕ
  month : ℕ
  day : ℕ
  hour : ℕ
  minute : ℕ
  second : ℕ
  micro : ℕ
  fsp : ℕ
  timeType : TimeType
  deriving DecidableEq

inductive TimeError
  | truncated
  | invalidFsp (fsp : ℤ)
  | incorrectDatetimeValue (t : Time)
  deriving DecidableEq

/-- What an `EvalContext` says about dates: the SQL mode, the flag `IGNORE_TRUNCATE` and the time
zone, as the Unix time of a local time. -/
structure EvalContext where
  invalidDates : Bool
  noZeroDate : Bool
  noZeroInDate : Bool
  strictMode : Bool
  ignoreTruncate : Bool
  timestamp : Time → Option ℤ

def checkFsp (fsp : ℤ) : Except TimeError ℕ :=
  if fsp = -1 then .ok 0
  else if 0 ≤ fsp ∧ fsp ≤ 6 then .ok fsp.toNat
  else .error (.invalidFsp fsp)

/-! ## The check of the components

The inner `none` is the `Ok(None)` of the source, which stands for the zero time. -/

namespace Time

variable (ctx : EvalContext) (args t : Time) (fsp : ℕ)

def zero (timeType : TimeType) : Time := ⟨0, 0, 0, 0, 0, 0, 0, fsp, timeType⟩

def intoArray : List ℕ := [t.year, t.month, t.day, t.hour, t.minute, t.second, t.micro]

def isZero : Bool := t.intoArray == [0, 0, 0, 0, 0, 0, 0]

def handleZeroDate : OptionT (Except TimeError) Time :=
  if ctx.noZeroDate then
    if !ctx.strictMode || ctx.ignoreTruncate then failure else throwThe TimeError .truncated
  else pure args

def handleZeroInDate : OptionT (Except TimeError) Time :=
  if ctx.noZeroInDate then
    if !ctx.strictMode || ctx.ignoreTruncate then handleZeroDate ctx (zero args.fsp args.timeType)
    else throwThe TimeError .truncated
  else pure args

def handleInvalidDate : OptionT (Except TimeError) Time :=
  if ctx.invalidDates then handleZeroDate ctx (zero args.fsp args.timeType)
  else throwThe TimeError .truncated

def checkMonthAndDay (year month day : ℕ) (allowInvalidDate : Bool) : Bool :=
  month ≤ 12 && day ≤ 31 && (allowInvalidDate || day ≤ lastDayOfMonth year month)

def checkDate : OptionT (Except TimeError) Time := do
  let checked ← if args.isZero then handleZeroDate ctx args else pure args
  let checked ←
    if args.month = 0 ∨ args.day = 0 then handleZeroInDate ctx checked else pure checked
  if 9999 < args.year ∨ !checkMonthAndDay args.year args.month args.day ctx.invalidDates then
    handleInvalidDate ctx checked
  else pure checked

def checkDatetime : OptionT (Except TimeError) Time := do
  let datetime ← checkDate ctx args
  if 23 < datetime.hour ∨ 59 < datetime.minute ∨ 59 < datetime.second ∨ 999999 < datetime.micro then
    handleInvalidDate ctx datetime
  else pure datetime

def checkTimestamp : OptionT (Except TimeError) Time :=
  if args.isZero then handleZeroDate ctx args
  else match ctx.timestamp args with
    | none => handleInvalidDate ctx args
    | some ts => if 0 ≤ ts ∧ ts ≤ 2 ^ 31 - 1 then pure args else handleInvalidDate ctx args

def new : Except TimeError Time :=
  let checked := match args.timeType with
    | .date | .dateTime => checkDatetime ctx args
    | .timestamp => checkTimestamp ctx args
  match checked.run with
  | .ok datetime => .ok (datetime.getD (zero args.fsp args.timeType))
  | .error _ => .error (.incorrectDatetimeValue args)

def fromSlice (timeType : TimeType) : List ℕ → Option Time
  | [year, month, day, hour, minute, second, micro] =>
    (new ctx ⟨year, month, day, hour, minute, second, micro, fsp, timeType⟩).toOption
  | _ => none

end Time

/-! ## Rounding -/

/-- One turn of the loop of `round_components`: the carry out of component `i`. -/
def carry (modulus parts : List ℕ) (i : ℕ) : Option (List ℕ) :=
  if modulus.getD i 0 + (if i < 3 then 1 else 0) ≤ parts.getD i 0 then
    let parts := parts.set i (parts.getD i 0 - modulus.getD i 0)
    let previous := parts.getD (i - 1) 0
    -- There is no carry into a year, a month or a day that is zero.
    if i < 4 ∧ previous = 0 ∨ modulus.getD (i - 1) 0 < previous then none
    else some (parts.set (i - 1) (previous + 1))
  else some parts

def roundComponents (parts : List ℕ) : Option (List ℕ) :=
  let lastDay := lastDayOfMonth (parts.getD 0 0) (parts.getD 1 0)
  [6, 5, 4, 3, 2, 1].foldlM (carry [2 ^ 32 - 1, 12, lastDay, 24, 60, 60, 1000000]) parts

/-- `round_frac`: whether there is a carry, and the rounded fraction. -/
def roundFrac (frac fsp : ℕ) : Bool × ℕ :=
  if frac < 1000000 ∧ fsp = 6 then (false, frac)
  else
    let width := if 1000000 ≤ frac then 7 else 6
    let mask := 10 ^ (width - fsp - 1)
    let result := (frac / mask + 5) / 10 * mask * if width = 6 then 10 else 1
    (1000000 ≤ result, result)

/-- `Time::round_frac` -/
def Time.roundFrac (ctx : EvalContext) (t : Time) (fsp : ℤ) : Except TimeError Time := do
  if t.timeType = .date ∨ t.isZero then return t
  let fsp ← checkFsp fsp
  if t.fsp < fsp then return { t with fsp }
  let (carry, frac) := QueryDatatype.roundFrac t.micro fsp
  let slice := t.intoArray.set 6 frac
  match if carry then roundComponents slice else some slice with
  | none => new ctx (zero fsp t.timeType)
  | some slice =>
    (fromSlice ctx fsp t.timeType slice).elim (throw (.incorrectDatetimeValue t)) pure

/-! ## The time line -/

/-- `r` is the multiple of `unit` nearest to `n`, and the upper one of two. -/
def Nearest (unit n r : ℕ) : Prop :=
  unit ∣ r ∧ 2 * r ≤ 2 * n + unit ∧ 2 * n < 2 * r + unit

theorem Nearest.add_seconds {fsp n r : ℕ} (seconds : ℕ) (h : Nearest (10 ^ (6 - fsp)) n r) :
    Nearest (10 ^ (6 - fsp)) (seconds * 1000000 + n) (seconds * 1000000 + r) := by
  obtain ⟨hdvd, hle, hlt⟩ := h
  have hunit : 10 ^ (6 - fsp) ∣ 1000000 := Nat.pow_dvd_pow 10 (Nat.sub_le 6 fsp)
  exact ⟨Nat.dvd_add (Nat.dvd_mul_left_of_dvd hunit _) hdvd, by omega, by omega⟩

theorem Nearest.mono {unit n₁ n₂ r₁ r₂ : ℕ} (h₁ : Nearest unit n₁ r₁) (h₂ : Nearest unit n₂ r₂)
    (h : n₁ ≤ n₂) : r₁ ≤ r₂ := by
  obtain ⟨⟨a, rfl⟩, hle, -⟩ := h₁
  obtain ⟨⟨b, rfl⟩, -, hlt⟩ := h₂
  by_contra! hab
  -- Two different multiples are a whole unit apart.
  have := Nat.mul_le_mul_left unit (Nat.lt_of_mul_lt_mul_left hab)
  rw [Nat.mul_succ] at this
  omega

theorem roundFrac_nearest {frac fsp : ℕ} (hfrac : frac < 1000000) (hfsp : fsp ≤ 6) :
    Nearest (10 ^ (6 - fsp)) frac (roundFrac frac fsp).2 ∧ (roundFrac frac fsp).2 ≤ 1000000 ∧
      ((roundFrac frac fsp).1 = true ↔ 1000000 ≤ (roundFrac frac fsp).2) := by
  interval_cases fsp <;> simp [roundFrac, Nearest, hfrac, hfrac.not_ge] <;> omega

theorem lastDayOfMonth_ge (year month : ℕ) : 28 ≤ lastDayOfMonth year month := by
  unfold lastDayOfMonth
  split <;> omega

theorem lastDayOfMonth_le {year month : ℕ} : lastDayOfMonth year month ≤ 31 := by
  have := (isLeapYear year).toNat_le
  unfold lastDayOfMonth
  split <;> omega

/-- The days up to this one, from the first of the year zero on. -/
def dayNumber (year month day : ℕ) : ℕ :=
  ∑ y ∈ range year, ∑ m ∈ Ico 1 13, lastDayOfMonth y m +
    ∑ m ∈ Ico 1 month, lastDayOfMonth year m + day

theorem dayNumber_month {year month : ℕ} (h : 1 ≤ month) :
    dayNumber year (month + 1) 1 = dayNumber year month (lastDayOfMonth year month) + 1 := by
  rw [dayNumber, dayNumber, sum_Ico_succ_top h]
  omega

theorem dayNumber_year {year : ℕ} :
    dayNumber (year + 1) 1 1 = dayNumber year 12 (lastDayOfMonth year 12) + 1 := by
  rw [dayNumber, dayNumber, sum_range_succ, sum_Ico_succ_top (by decide : 1 ≤ 12), Ico_self,
    sum_empty]
  omega

namespace Time

def seconds (t : Time) : ℕ :=
  ((dayNumber t.year t.month t.day * 24 + t.hour) * 60 + t.minute) * 60 + t.second

def micros (t : Time) : ℕ := t.seconds * 1000000 + t.micro

@[mk_iff]
structure OnCalendar (t : Time) : Prop where
  month_pos : 1 ≤ t.month
  month_le : t.month ≤ 12
  day_pos : 1 ≤ t.day
  day_le : t.day ≤ lastDayOfMonth t.year t.month
  hour_lt : t.hour < 24
  minute_lt : t.minute < 60
  second_lt : t.second < 60
  micro_lt : t.micro < 1000000

/-- A valid `DateTime`. -/
@[mk_iff]
structure Valid (t : Time) : Prop extends OnCalendar t where
  year_le : t.year ≤ 9999
  fsp_le : t.fsp ≤ 6
  timeType_eq : t.timeType = .dateTime

instance : DecidablePred OnCalendar := fun t => decidable_of_iff' _ (onCalendar_iff t)

instance : DecidablePred Valid := fun t => decidable_of_iff' _ (valid_iff t)

variable {ctx : EvalContext} {t : Time} {fsp : ℕ}

/-- A second more, with the carry through the calendar. -/
theorem roundComponents_seconds (ht : t.OnCalendar) (hy : t.year ≤ 9999) :
    ∃ next : Time, next.OnCalendar ∧ next.fsp = fsp ∧ next.timeType = .dateTime ∧
      next.micro = 0 ∧ next.seconds = t.seconds + 1 ∧
      roundComponents (t.intoArray.set 6 1000000) =
        if t.year = 0 ∧ next.year = 1 then none else some next.intoArray := by
  obtain ⟨y, mo, d, h, mi, s, us, f, tt⟩ := t
  obtain ⟨hmo, hmo', hd, hd', hh, hmi, hs, -⟩ := ht
  dsimp only at *
  have hy₀ : ¬ (y = 0 ∧ y = 1) := by omega
  have hmo₀ : mo ≠ 0 := by omega
  have hmo₁ : ¬ 13 ≤ mo := by omega
  have hd₀ : d ≠ 0 := by omega
  -- The carry stops at the first component that is not at its maximum.
  by_cases hs' : s < 59
  · refine ⟨⟨y, mo, d, h, mi, s + 1, 0, fsp, .dateTime⟩, ?_, rfl, rfl, rfl, ?_, ?_⟩
    · constructor <;> dsimp only <;> omega
    · simp only [seconds]
      omega
    · simp [roundComponents, carry, intoArray, hy₀, hs.le.not_gt, hs'.not_ge, hmi.not_ge,
        hh.not_ge, hd'.not_gt, hmo₁]
  obtain rfl : s = 59 := by omega
  by_cases hmi' : mi < 59
  · refine ⟨⟨y, mo, d, h, mi + 1, 0, 0, fsp, .dateTime⟩, ?_, rfl, rfl, rfl, ?_, ?_⟩
    · constructor <;> dsimp only <;> omega
    · simp only [seconds]
      omega
    · simp [roundComponents, carry, intoArray, hy₀, hmi.le.not_gt, hmi'.not_ge, hh.not_ge,
        hd'.not_gt, hmo₁]
  obtain rfl : mi = 59 := by omega
  by_cases hh' : h < 23
  · refine ⟨⟨y, mo, d, h + 1, 0, 0, 0, fsp, .dateTime⟩, ?_, rfl, rfl, rfl, ?_, ?_⟩
    · constructor <;> dsimp only <;> omega
    · simp only [seconds]
      omega
    · simp [roundComponents, carry, intoArray, hy₀, hh.le.not_gt, hh'.not_ge, hd'.not_gt, hmo₁]
  obtain rfl : h = 23 := by omega
  by_cases hd'' : d < lastDayOfMonth y mo
  · refine ⟨⟨y, mo, d + 1, 0, 0, 0, 0, fsp, .dateTime⟩, ?_, rfl, rfl, rfl, ?_, ?_⟩
    · constructor <;> dsimp only <;> omega
    · simp only [seconds, dayNumber]
      omega
    · simp [roundComponents, carry, intoArray, hy₀, hd'.not_gt, hd''.not_ge, hmo₁, hd₀]
  obtain rfl : d = lastDayOfMonth y mo := by omega
  by_cases hmo'' : mo < 12
  · refine ⟨⟨y, mo + 1, 1, 0, 0, 0, 0, fsp, .dateTime⟩, ?_, rfl, rfl, rfl, ?_, ?_⟩
    · have := lastDayOfMonth_ge y (mo + 1)
      constructor <;> dsimp only <;> omega
    · simp only [seconds, dayNumber_month hmo]
      omega
    · simp [roundComponents, carry, intoArray, hy₀, hd₀, hmo'.not_gt, hmo''.not_ge, hmo₀]
  obtain rfl : mo = 12 := by omega
  refine ⟨⟨y + 1, 1, 1, 0, 0, 0, 0, fsp, .dateTime⟩, ?_, rfl, rfl, rfl, ?_, ?_⟩
  · have := lastDayOfMonth_ge (y + 1) 1
    constructor <;> dsimp only <;> omega
  · simp only [seconds, dayNumber_year]
    omega
  · have hy' : ¬ 4294967295 < y := by omega
    simp [roundComponents, carry, intoArray, hd₀, hy']

theorem isZero_eq_false (ht : t.OnCalendar) : t.isZero = false := by
  simp [isZero, intoArray, Nat.one_le_iff_ne_zero.mp ht.month_pos]

theorem checkDate_of_onCalendar (ht : t.OnCalendar) :
    checkDate ctx t = if 9999 < t.year then handleInvalidDate ctx t else pure t := by
  have hzero := isZero_eq_false ht
  obtain ⟨hmo, hmo', hd, hd', -⟩ := ht
  have hcheck : checkMonthAndDay t.year t.month t.day ctx.invalidDates = true := by
    simp [checkMonthAndDay, hmo', hd', hd'.trans lastDayOfMonth_le]
  simp [checkDate, hzero, hcheck, Nat.one_le_iff_ne_zero.mp hmo, Nat.one_le_iff_ne_zero.mp hd]

theorem new_of_valid (ht : t.Valid) : new ctx t = .ok t := by
  have hcheck : checkDatetime ctx t = pure t := by
    simp [checkDatetime, checkDate_of_onCalendar ht.toOnCalendar, ht.year_le.not_gt]
    have := ht.hour_lt
    have := ht.minute_lt
    have := ht.second_lt
    have := ht.micro_lt
    omega
  rw [new, ht.timeType_eq]
  dsimp only
  rw [hcheck]
  rfl

/-- What stands for a time that is out of range. -/
def Rejected (fsp : ℕ) (r : Except TimeError Time) : Prop :=
  r = .ok (zero fsp .dateTime) ∨ ∃ e, r = .error e

theorem new_zero : Rejected fsp (new ctx (zero fsp .dateTime)) := by
  obtain ⟨a, b, c, d, e, ts⟩ := ctx
  cases a <;> cases b <;> cases c <;> cases d <;> cases e <;>
    first | exact .inl rfl | exact .inr ⟨_, rfl⟩

variable (ctx) in
theorem new_late (ht : t.OnCalendar) (hy : 9999 < t.year) (htype : t.timeType = .dateTime) :
    Rejected t.fsp (new ctx t) := by
  rw [new, htype]
  dsimp only
  rw [checkDatetime, checkDate_of_onCalendar ht, if_pos hy, handleInvalidDate, handleZeroDate]
  rw [htype]
  split_ifs <;> first | exact .inl rfl | exact .inr ⟨_, rfl⟩

variable (ctx) in
/-- The new components are checked again. -/
theorem fromSlice_intoArray (ht : t.OnCalendar) (hf : t.fsp = fsp) (htype : t.timeType = .dateTime)
    (hfsp : fsp ≤ 6) (e : TimeError) :
    if 9999 < t.year then
      Rejected fsp ((fromSlice ctx fsp .dateTime t.intoArray).elim (.error e) .ok)
    else (fromSlice ctx fsp .dateTime t.intoArray).elim (Except.error e) .ok = .ok t := by
  have hslice : fromSlice ctx fsp .dateTime t.intoArray = (new ctx t).toOption := by
    rw [← htype, ← hf]
    rfl
  rw [hslice]
  split_ifs with hy
  · rcases new_late ctx ht hy htype with h | ⟨e, h⟩ <;> rw [h]
    · exact .inl (hf ▸ rfl)
    · exact .inr ⟨_, rfl⟩
  · rw [new_of_valid ⟨ht, Nat.not_lt.mp hy, hf ▸ hfsp, htype⟩]
    rfl

/-- Rounding `t` to `fsp` digits gives `rounded`, unless this is after the year 9999, or after the
year zero and `t` is in it. -/
structure RoundsTo (ctx : EvalContext) (t : Time) (fsp : ℕ) (rounded : Time) : Prop where
  onCalendar : rounded.OnCalendar
  fsp_eq : rounded.fsp = fsp
  timeType_eq : rounded.timeType = .dateTime
  nearest : Nearest (10 ^ (6 - fsp)) t.micros rounded.micros
  result : if 9999 < rounded.year ∨ t.year = 0 ∧ rounded.year = 1 then
      Rejected fsp (t.roundFrac ctx fsp)
    else t.roundFrac ctx fsp = .ok rounded

variable (ctx) in
/-- **Every valid time is rounded to the nearest one.** -/
theorem exists_roundsTo (ht : t.Valid) (hfsp : fsp ≤ t.fsp) :
    ∃ rounded, RoundsTo ctx t fsp rounded := by
  have hfsp' := hfsp.trans ht.fsp_le
  have hround : t.roundFrac ctx fsp =
      match if (QueryDatatype.roundFrac t.micro fsp).1 then
          roundComponents (t.intoArray.set 6 (QueryDatatype.roundFrac t.micro fsp).2)
        else some (t.intoArray.set 6 (QueryDatatype.roundFrac t.micro fsp).2) with
      | none => new ctx (zero fsp .dateTime)
      | some slice =>
        (fromSlice ctx fsp .dateTime slice).elim (.error (.incorrectDatetimeValue t)) .ok := by
    have hzero := isZero_eq_false ht.toOnCalendar
    have hcheck : checkFsp fsp = .ok fsp := by simp [checkFsp, hfsp']
    simp [Time.roundFrac, ht.timeType_eq, hzero, hcheck, ok_bind, hfsp.not_gt]
    rfl
  obtain ⟨hnear, hle, hcarry⟩ := roundFrac_nearest ht.micro_lt hfsp'
  generalize QueryDatatype.roundFrac t.micro fsp = r at hround hnear hle hcarry
  obtain ⟨carry, frac⟩ := r
  cases carry with
  | false =>
    have hlt : frac < 1000000 := by simpa using hcarry
    have ht' : OnCalendar { t with micro := frac, fsp } := { ht.toOnCalendar with micro_lt := hlt }
    refine ⟨_, ht', rfl, ht.timeType_eq, hnear.add_seconds t.seconds, ?_⟩
    have hslice := fromSlice_intoArray ctx ht' rfl ht.timeType_eq hfsp' (.incorrectDatetimeValue t)
    have hyear := ht.year_le
    rw [if_neg hyear.not_gt] at hslice
    rw [if_neg (by dsimp only; omega), hround]
    exact hslice
  | true =>
    obtain rfl : frac = 1000000 := hle.antisymm (hcarry.mp rfl)
    obtain ⟨next, hnext, hf, htype, hmicro, hseconds, hparts⟩ :=
      roundComponents_seconds ht.toOnCalendar ht.year_le
    refine ⟨next, hnext, hf, htype, ?_, ?_⟩
    · have hmicros : next.micros = t.seconds * 1000000 + 1000000 := by
        rw [micros, hmicro, hseconds]
        omega
      rw [hmicros]
      exact hnear.add_seconds t.seconds
    rw [hround, if_pos rfl, hparts]
    by_cases hzero : t.year = 0 ∧ next.year = 1
    · rw [if_pos (.inr hzero), if_pos hzero]
      exact new_zero
    · simp only [hzero, or_false, if_false]
      exact fromSlice_intoArray ctx hnext hf htype hfsp' _

/-- A valid result is the rounded time, for the zero time is not valid. -/
theorem nearest_of_roundFrac {r : Time} (ht : t.Valid) (hfsp : fsp ≤ t.fsp)
    (h : t.roundFrac ctx fsp = .ok r) (hr : r.Valid) :
    Nearest (10 ^ (6 - fsp)) t.micros r.micros := by
  obtain ⟨rounded, -, -, -, hnear, hresult⟩ := exists_roundsTo ctx ht hfsp
  split_ifs at hresult
  · rcases hresult with hz | ⟨e, he⟩
    · cases h.symm.trans hz
      cases hr.month_pos
    · cases h.symm.trans he
  · cases h.symm.trans hresult
    exact hnear

/-- **Rounding is exact on the calendar**, and monotone. -/
theorem roundFrac_exact (ctx : EvalContext) (fsp : ℕ) :
    (∀ t : Time, t.Valid → fsp ≤ t.fsp → ∃ rounded, RoundsTo ctx t fsp rounded) ∧
    ∀ t₁ t₂ r₁ r₂ : Time, t₁.Valid → t₂.Valid → fsp ≤ t₁.fsp → fsp ≤ t₂.fsp →
      t₁.roundFrac ctx fsp = .ok r₁ → t₂.roundFrac ctx fsp = .ok r₂ → r₁.Valid → r₂.Valid →
      t₁.micros ≤ t₂.micros → r₁.micros ≤ r₂.micros := by
  refine ⟨fun t => exists_roundsTo ctx, fun t₁ t₂ r₁ r₂ ht₁ ht₂ hf₁ hf₂ h₁ h₂ hr₁ hr₂ => ?_⟩
  exact (nearest_of_roundFrac ht₁ hf₁ h₁ hr₁).mono (nearest_of_roundFrac ht₂ hf₂ h₂ hr₂)

/-- A context with no flags. -/
def plainContext : EvalContext := ⟨false, false, false, false, false, fun _ => none⟩

/-- A carry from the last second of a year to the next year. -/
theorem roundFrac_new_year :
    let t : Time := ⟨2019, 12, 31, 23, 59, 59, 400000, 6, .dateTime⟩
    let r : Time := ⟨2019, 12, 31, 23, 59, 59, 0, 0, .dateTime⟩
    let next : Time := ⟨2020, 1, 1, 0, 0, 0, 0, 0, .dateTime⟩
    t.roundFrac plainContext 0 = .ok r ∧
      { t with micro := 500000 }.roundFrac plainContext 0 = .ok next ∧
      (∃ rounded, RoundsTo plainContext t 0 rounded) ∧ r.micros ≤ next.micros := by
  intro t r next
  have hle : t.micros ≤ micros { t with micro := 500000 } := by
    simp only [t, micros, seconds]
    omega
  have hr : t.roundFrac plainContext 0 = .ok r := by decide
  have hnext : { t with micro := 500000 }.roundFrac plainContext 0 = .ok next := by decide
  have hround := roundFrac_exact plainContext 0
  exact ⟨hr, hnext, hround.1 t (by decide) (by decide), hround.2 _ _ _ _ (by decide) (by decide)
    (by decide) (by decide) hr hnext (by decide) (by decide) hle⟩

/-- The first second after the year zero is the nearest one. -/
theorem roundFrac_year_zero :
    let t : Time := ⟨0, 12, 31, 23, 59, 59, 999999, 6, .dateTime⟩
    let next : Time := ⟨1, 1, 1, 0, 0, 0, 0, 0, .dateTime⟩
    t.Valid ∧ next.Valid ∧ Nearest (10 ^ 6) t.micros next.micros ∧
      t.roundFrac plainContext 0 = .ok (zero 0 .dateTime) := by
  exact ⟨by decide, by decide, by unfold Nearest; decide +kernel, rfl⟩

end Time

end Tikv.QueryDatatype
