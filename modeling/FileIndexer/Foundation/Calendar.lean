import Mathlib.Tactic.Linarith

namespace Calendar

structure Date where
  year : Int
  month : Int
  day : Int
  deriving DecidableEq, Repr

-- a day within the 400-year cycle of years that begin in March, so that a leap day ends its year
structure Cycle where
  era : Int
  century : Int
  olympiad : Int
  year : Int
  dayOfYear : Int

def Cycle.ofDay (n : Int) : Cycle :=
  let day := n + 719468
  let dayOfEra := day % 146097
  let century := min (dayOfEra / 36524) 3
  let dayOfCentury := dayOfEra - 36524 * century
  let dayOfOlympiad := dayOfCentury % 1461
  let year := min (dayOfOlympiad / 365) 3
  ⟨day / 146097, century, dayOfCentury / 1461, year, dayOfOlympiad - 365 * year⟩

def Cycle.marchYear (c : Cycle) : Int := 400 * c.era + 100 * c.century + 4 * c.olympiad + c.year

-- the date of a day counted from 1 January 1970, in the proleptic Gregorian calendar
def ofDay (n : Int) : Date :=
  let c := Cycle.ofDay n
  let m := (5 * c.dayOfYear + 2) / 153
  ⟨if m < 10 then c.marchYear else c.marchYear + 1, if m < 10 then m + 3 else m - 9,
    c.dayOfYear - (153 * m + 2) / 5 + 1⟩

def toDay (d : Date) : Int :=
  let y := if 2 < d.month then d.year else d.year - 1
  let m := if 2 < d.month then d.month - 3 else d.month + 9
  365 * y + y / 4 - y / 100 + y / 400 + ((153 * m + 2) / 5 + d.day - 1) - 719468

section OfDay

structure Cycle.Within (c : Cycle) (n : Int) : Prop where
  century : 0 ≤ c.century ∧ c.century ≤ 3
  olympiad : 0 ≤ c.olympiad ∧ c.olympiad ≤ 24
  year : 0 ≤ c.year ∧ c.year ≤ 3
  dayOfYear : 0 ≤ c.dayOfYear ∧ c.dayOfYear ≤ 365
  day : 146097 * c.era + 36524 * c.century + 1461 * c.olympiad + 365 * c.year + c.dayOfYear =
    n + 719468

theorem Cycle.ofDay_within (n : Int) : (Cycle.ofDay n).Within n := by
  have hera : 0 ≤ (n + 719468) % 146097 ∧ (n + 719468) % 146097 < 146097 := by omega
  have hcentury : 0 ≤ (Cycle.ofDay n).century ∧ (Cycle.ofDay n).century ≤ 3 := by
    simp only [Cycle.ofDay]
    omega
  have holympiad : 0 ≤ (Cycle.ofDay n).olympiad ∧ (Cycle.ofDay n).olympiad ≤ 24 := by
    simp only [Cycle.ofDay]
    omega
  have hyear : 0 ≤ (Cycle.ofDay n).year ∧ (Cycle.ofDay n).year ≤ 3 := by
    simp only [Cycle.ofDay]
    omega
  refine ⟨hcentury, holympiad, hyear, ?_, ?_⟩
  · simp only [Cycle.ofDay]
    omega
  · simp only [Cycle.ofDay]
    omega

theorem Cycle.Within.marchYear {c : Cycle} {n : Int} (h : c.Within n) :
    365 * c.marchYear + c.marchYear / 4 - c.marchYear / 100 + c.marchYear / 400 + c.dayOfYear =
      n + 719468 := by
  obtain ⟨hcentury, holympiad, hyear, -, hday⟩ := h
  have hfour : c.marchYear / 4 = 100 * c.era + 25 * c.century + c.olympiad := by
    unfold Cycle.marchYear
    omega
  have hhundred : c.marchYear / 100 = 4 * c.era + c.century := by
    unfold Cycle.marchYear
    omega
  have hcycle : c.marchYear / 400 = c.era := by
    unfold Cycle.marchYear
    omega
  rw [hfour, hhundred, hcycle]
  unfold Cycle.marchYear
  omega

theorem ofDay_bounds (n : Int) : (1 ≤ (ofDay n).month ∧ (ofDay n).month ≤ 12) ∧
    1 ≤ (ofDay n).day ∧ (ofDay n).day ≤ 31 := by
  have hday := (Cycle.ofDay_within n).dayOfYear
  simp only [ofDay]
  generalize (Cycle.ofDay n).dayOfYear = d at hday
  refine ⟨?_, ?_⟩
  · split <;> omega
  · omega

theorem toDay_ofDay (n : Int) : toDay (ofDay n) = n := by
  have hmarch := (Cycle.ofDay_within n).marchYear
  have hday := (Cycle.ofDay_within n).dayOfYear
  simp only [ofDay]
  generalize (Cycle.ofDay n).marchYear = y at hmarch
  generalize (Cycle.ofDay n).dayOfYear = d at hmarch hday
  have hmonth : 0 ≤ (5 * d + 2) / 153 ∧ (5 * d + 2) / 153 ≤ 11 := by omega
  generalize (5 * d + 2) / 153 = m at hmonth
  rcases lt_or_ge m 10 with hlt | hge
  · have hyear : toDay ⟨y, m + 3, d - (153 * m + 2) / 5 + 1⟩ = n := by
      simp only [toDay, if_pos (show 2 < m + 3 by omega), add_sub_cancel_right]
      omega
    simpa [hlt] using hyear
  · have hyear : toDay ⟨y + 1, m - 9, d - (153 * m + 2) / 5 + 1⟩ = n := by
      simp only [toDay, if_neg (show ¬2 < m - 9 by omega), add_sub_cancel_right, sub_add_cancel]
      omega
    simpa [hge.not_gt] using hyear

theorem ofDay_injective : Function.Injective ofDay :=
  Function.LeftInverse.injective toDay_ofDay

theorem year_pos {n : Int} (h : -719162 ≤ n) : 1 ≤ (ofDay n).year := by
  obtain ⟨hcentury, holympiad, hyear, hdays, hday⟩ := Cycle.ofDay_within n
  simp only [ofDay, Cycle.marchYear]
  generalize Cycle.ofDay n = c at *
  split <;> omega

end OfDay

end Calendar
