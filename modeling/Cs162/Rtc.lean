import Mathlib.Algebra.BigOperators.Intervals
import Mathlib.Algebra.BigOperators.Group.Finset.Basic
import Mathlib.Tactic.Ring

/-!
# The real-time clock

`rtc_get_time` turns the registers of the clock into seconds since 1970. Its loop over the months
adds the current month too, and it places the leap days two years off: the years are counted from
1970, which is not divisible by four. So the result is too large for every date
(`rtcGetTime_eq_iff`), and it falls from the last day of January to the first of February.
-/

namespace Rtc

/-! ## The code -/

/-- `bcd_to_bin`. -/
def bcdToBin (x : UInt8) : ℤ := ((x &&& 0x0f).toNat + (x >>> 4).toNat * 10 : ℕ)

/-- `days_per_month`. -/
def daysPerMonth : List ℤ := [31, 28, 31, 30, 31, 30, 31, 31, 30, 31, 30, 31]

/-- The components of a time. -/
structure Components where
  sec : ℤ
  min : ℤ
  hour : ℤ
  mday : ℤ
  mon : ℤ
  year : ℤ

/-- The loop that reads the components until the seconds have not changed. The registers may
change from one call of `cmos_read` to the next; the calls are numbered. -/
def readTime (cmosRead : ℕ → UInt8 → UInt8) : ℕ → ℕ → Option Components
  | 0, _ => none
  | fuel + 1, n =>
    let sec := bcdToBin (cmosRead n 0)
    let min := bcdToBin (cmosRead (n + 1) 2)
    let hour := bcdToBin (cmosRead (n + 2) 4)
    let mday := bcdToBin (cmosRead (n + 3) 7)
    let mon := bcdToBin (cmosRead (n + 4) 8)
    let year := bcdToBin (cmosRead (n + 5) 9)
    if sec ≠ bcdToBin (cmosRead (n + 6) 0) then readTime cmosRead fuel (n + 7)
    else some ⟨sec, min, hour, mday, mon, year⟩

/-- `time_t` is an `unsigned long`. -/
def timeT (n : ℤ) : ℤ := n % 2 ^ 32

/-- The loop over the months. -/
def addMonths (time mon : ℤ) : ℤ :=
  (List.range' 1 mon.toNat).foldl
    (fun time i => timeT (time + daysPerMonth.getD (i - 1) 0 * 24 * 60 * 60)) time

/-- The seconds since the epoch as the code computes them from the components. -/
def breakDown (c : Components) : ℤ :=
  let year := (if c.year < 70 then c.year + 100 else c.year) - 70
  let time := timeT ((year * 365 + (year - 1).tdiv 4) * 24 * 60 * 60)
  let time := addMonths time c.mon
  let time := if c.mon > 2 ∧ year.tmod 4 = 0 then timeT (time + 24 * 60 * 60) else time
  let time := timeT (time + (c.mday - 1) * 24 * 60 * 60)
  let time := timeT (time + c.hour * 60 * 60)
  let time := timeT (time + c.min * 60)
  timeT (time + c.sec)

/-- `rtc_get_time`. -/
def rtcGetTime (cmosRead : ℕ → UInt8 → UInt8) (fuel : ℕ) : Option ℤ :=
  (readTime cmosRead fuel 0).map breakDown

/-! ## Dates -/

/-- A year with a leap day. -/
def IsLeap (year : ℕ) : Prop := year % 4 = 0 ∧ (year % 100 ≠ 0 ∨ year % 400 = 0)

instance (year : ℕ) : Decidable (IsLeap year) := inferInstanceAs (Decidable (_ ∧ _))

/-- The days of a month. -/
def monthDays (year mon : ℕ) : ℕ :=
  if mon = 2 then if IsLeap year then 29 else 28
  else if mon = 4 ∨ mon = 6 ∨ mon = 9 ∨ mon = 11 then 30 else 31

/-- The days of a year. -/
def yearDays (year : ℕ) : ℕ := if IsLeap year then 366 else 365

/-- **A valid date and time** of the years that the clock is used in. -/
structure DateTime where
  year : ℕ
  mon : ℕ
  mday : ℕ
  hour : ℕ
  min : ℕ
  sec : ℕ
  year_range : 1970 ≤ year ∧ year ≤ 2037
  mon_range : 1 ≤ mon ∧ mon ≤ 12
  mday_range : 1 ≤ mday ∧ mday ≤ monthDays year mon
  hour_range : hour < 24
  min_range : min < 60
  sec_range : sec < 60

/-- The days from the first of January 1970 to the first day of a month. -/
def daysBefore (year mon : ℕ) : ℕ :=
  ∑ y ∈ Finset.Ico 1970 year, yearDays y + ∑ m ∈ Finset.Ico 1 mon, monthDays year m

/-- **The seconds from the epoch to a date.** -/
def DateTime.seconds (d : DateTime) : ℕ :=
  (((daysBefore d.year d.mon + (d.mday - 1)) * 24 + d.hour) * 60 + d.min) * 60 + d.sec

/-- Two decimal digits in a byte. -/
def bcd (n : ℕ) : UInt8 := UInt8.ofNat (n / 10 % 10 * 16 + n % 10)

/-- The registers show a date, and do not change while they are read. -/
def Shows (cmosRead : ℕ → UInt8 → UInt8) (d : DateTime) : Prop :=
  ∀ n, cmosRead n 0 = bcd d.sec ∧ cmosRead n 2 = bcd d.min ∧ cmosRead n 4 = bcd d.hour
    ∧ cmosRead n 7 = bcd d.mday ∧ cmosRead n 8 = bcd d.mon ∧ cmosRead n 9 = bcd d.year

/-! ## What the code returns -/

theorem bcdToBin_bcd (n : ℕ) : bcdToBin (bcd n) = (n % 100 : ℕ) := by
  have hdigits : ∀ a < 10, ∀ b < 10,
      bcdToBin (UInt8.ofNat (a * 16 + b)) = ((a * 10 + b : ℕ) : ℤ) := by decide +kernel
  unfold bcd
  rw [hdigits _ (Nat.mod_lt _ (by decide)) _ (Nat.mod_lt _ (by decide))]
  congr 1
  omega

theorem readTime_eq {cmosRead : ℕ → UInt8 → UInt8} {d : DateTime} (h : Shows cmosRead d)
    {fuel : ℕ} (hfuel : 0 < fuel) : readTime cmosRead fuel 0
      = some ⟨d.sec, d.min, d.hour, d.mday, d.mon, (d.year % 100 : ℕ)⟩ := by
  have hmday : d.mday ≤ 31 := d.mday_range.2.trans (by unfold monthDays; split_ifs <;> omega)
  have hmon := d.mon_range
  have hhour := d.hour_range
  have hmin := d.min_range
  have hsec := d.sec_range
  obtain ⟨fuel, rfl⟩ := Nat.exists_eq_add_of_lt hfuel
  have htwo : ∀ k < 100, k % 100 = k := fun k hk => Nat.mod_eq_of_lt hk
  unfold readTime
  simp only [fun n => (h n).1, fun n => (h n).2.1, fun n => (h n).2.2.1, fun n => (h n).2.2.2.1,
    fun n => (h n).2.2.2.2.1, fun n => (h n).2.2.2.2.2, bcdToBin_bcd, ne_eq, not_true_eq_false,
    if_false, htwo d.sec (by omega), htwo d.min (by omega), htwo d.hour (by omega),
    htwo d.mday (by omega), htwo d.mon (by omega)]

/-- The days that the code counts up to the first of a month. -/
def codeDays (year mon : ℕ) : ℤ :=
  ((year - 1970 : ℕ) : ℤ) * 365 + (((year - 1970 : ℕ) : ℤ) - 1).tdiv 4
    + ((List.range' 1 mon).map fun i => daysPerMonth.getD (i - 1) 0).sum
    + if 2 < mon ∧ (year - 1970) % 4 = 0 then 1 else 0

theorem addMonths_eq (time : ℤ) (mon : ℕ) : timeT (addMonths time mon)
      = timeT (time + ((List.range' 1 mon).map fun i => daysPerMonth.getD (i - 1) 0).sum * 86400)
    := by
  unfold addMonths timeT
  rw [Int.toNat_natCast]
  generalize List.range' 1 mon = months
  induction months generalizing time with
  | nil => simp
  | cons i months ih =>
    rw [List.foldl_cons, ih, Int.emod_add_emod, List.map_cons, List.sum_cons]
    refine congrArg (· % 2 ^ 32) ?_
    ring

/-- The components are added up, in 32 bits. -/
theorem breakDown_eq (d : DateTime) :
    breakDown ⟨d.sec, d.min, d.hour, d.mday, d.mon, (d.year % 100 : ℕ)⟩
      = timeT ((((codeDays d.year d.mon + (d.mday - 1)) * 24 + d.hour) * 60 + d.min) * 60 + d.sec)
    := by
  obtain ⟨hlo, hhi⟩ := d.year_range
  have hyear : (if ((d.year % 100 : ℕ) : ℤ) < 70 then ((d.year % 100 : ℕ) : ℤ) + 100
      else ((d.year % 100 : ℕ) : ℤ)) - 70 = ((d.year - 1970 : ℕ) : ℤ) := by
    split_ifs <;> omega
  have hadd : ∀ a b : ℤ, timeT (timeT a + b) = timeT (a + b) := fun a b => Int.emod_add_emod ..
  have hleap : ((d.mon : ℤ) > 2 ∧ ((d.year - 1970 : ℕ) : ℤ).tmod 4 = 0)
      ↔ 2 < d.mon ∧ (d.year - 1970) % 4 = 0 := by
    rw [Int.tmod_eq_emod_of_nonneg (by omega)]
    omega
  have hmonths : ∀ a b : ℤ, timeT (addMonths (timeT a) d.mon + b)
      = timeT (a + ((List.range' 1 d.mon).map fun i => daysPerMonth.getD (i - 1) 0).sum * 86400
        + b) := by
    intro a b
    rw [← hadd, addMonths_eq, hadd, add_assoc, hadd, add_assoc]
  unfold breakDown codeDays
  simp only [hyear, hleap]
  split_ifs
  all_goals
    simp only [hadd, hmonths]
    refine congrArg timeT ?_
    ring

/-- The code counts 27 to 32 days too many up to the first of a month. -/
theorem codeDays_eq {year mon : ℕ} (hyear : 1970 ≤ year ∧ year ≤ 2037) (hmon : 1 ≤ mon ∧ mon ≤ 12) :
    ∃ lead : ℕ, 27 ≤ lead ∧ lead ≤ 32 ∧ codeDays year mon = (daysBefore year mon + lead : ℕ)
      ∧ daysBefore year mon ≤ 24836 := by
  have hall : ∀ k < 68, ∀ m < 12,
      27 + (daysBefore (1970 + k) (m + 1) : ℤ) ≤ codeDays (1970 + k) (m + 1)
        ∧ codeDays (1970 + k) (m + 1) ≤ 32 + daysBefore (1970 + k) (m + 1)
        ∧ daysBefore (1970 + k) (m + 1) ≤ 24836 := by decide +kernel
  obtain ⟨k, rfl⟩ := Nat.exists_eq_add_of_le hyear.1
  obtain ⟨m, rfl⟩ := Nat.exists_eq_add_of_le' hmon.1
  obtain ⟨hlo, hhi, hbound⟩ := hall k (by omega) m (by omega)
  exact ⟨(codeDays (1970 + k) (m + 1) - daysBefore (1970 + k) (m + 1)).toNat, by omega, by omega,
    by omega, hbound⟩

/-- **No date is converted correctly**: the clock is 27 to 32 days ahead. -/
theorem rtcGetTime_eq_iff {cmosRead : ℕ → UInt8 → UInt8} {d : DateTime} (h : Shows cmosRead d)
    {fuel : ℕ} (hfuel : 0 < fuel) :
    (rtcGetTime cmosRead fuel = some (d.seconds : ℤ) ↔ False)
      ∧ ∃ lead : ℕ, 27 ≤ lead ∧ lead ≤ 32
        ∧ rtcGetTime cmosRead fuel = some ((d.seconds + lead * 86400 : ℕ) : ℤ) := by
  obtain ⟨lead, hlo, hhi, hdays, hbound⟩ := codeDays_eq d.year_range d.mon_range
  have hmday : d.mday ≤ 31 := d.mday_range.2.trans (by unfold monthDays; split_ifs <;> omega)
  have hfirst := d.mday_range.1
  have hhour := d.hour_range
  have hmin := d.min_range
  have hsec := d.sec_range
  have hresult : rtcGetTime cmosRead fuel = some ((d.seconds + lead * 86400 : ℕ) : ℤ) := by
    unfold rtcGetTime
    rw [readTime_eq h hfuel, Option.map_some, breakDown_eq, hdays]
    unfold timeT DateTime.seconds
    rw [Int.emod_eq_of_lt (by omega) (by omega), Option.some.injEq]
    push_cast
    omega
  refine ⟨iff_of_false (fun heq => ?_) id, lead, hlo, hhi, hresult⟩
  rw [hresult, Option.some.injEq] at heq
  omega

/-- The registers for a date. -/
def registers (d : DateTime) (_ : ℕ) (index : UInt8) : UInt8 :=
  if index = 0 then bcd d.sec else if index = 2 then bcd d.min else if index = 4 then bcd d.hour
  else if index = 7 then bcd d.mday else if index = 8 then bcd d.mon else bcd d.year

theorem shows_registers (d : DateTime) : Shows (registers d) d :=
  fun _ => ⟨rfl, rfl, rfl, rfl, rfl, rfl⟩

/-- The last second of a January, and the next one. -/
def january31 : DateTime :=
  ⟨2015, 1, 31, 23, 59, 59, by decide, by decide, by decide, by decide, by decide, by decide⟩

@[inherit_doc january31]
def february1 : DateTime :=
  ⟨2015, 2, 1, 0, 0, 0, by decide, by decide, by decide, by decide, by decide, by decide⟩

theorem rtcGetTime_eq_iff_january :
    Shows (registers january31) january31
      ∧ ((rtcGetTime (registers january31) 1 = some (january31.seconds : ℤ) ↔ False)
        ∧ ∃ lead : ℕ, 27 ≤ lead ∧ lead ≤ 32
          ∧ rtcGetTime (registers january31) 1
            = some ((january31.seconds + lead * 86400 : ℕ) : ℤ)) :=
  ⟨shows_registers _, rtcGetTime_eq_iff (shows_registers _) (by decide)⟩

/-- The last second of January 2015 is taken for the end of February, and time then goes back. -/
theorem rtcGetTime_ahead :
    january31.seconds = 1422748799 ∧ rtcGetTime (registers january31) 1 = some 1425427199
    ∧ february1.seconds = 1422748800 ∧ rtcGetTime (registers february1) 1 = some 1425168000 := by
  decide +kernel

end Rtc
