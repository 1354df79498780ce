import Velocity.Scheduler.Expression

/-! The next due minute of an expression, found by trying minute after minute. -/

namespace Scheduling

def Expression.dueAt (e : Expression) (zone : Int → Int) (minute : Int) : Bool :=
  e.isDue (wallTime zone (60 * minute))

/-- The loop of `Next`, with a number of rounds to go. -/
def Expression.search (e : Expression) (zone : Int → Int) : Nat → Int → Option Int
  | 0, _ => none
  | n + 1, next => if e.dueAt zone next then some next else e.search zone n (next + 1)

def maxIterations : Nat := 4 * 365 * 24 * 60

/-- From an instant in nanoseconds, in minutes since 1970; `none` is the zero time. -/
def Expression.next (e : Expression) (zone : Int → Int) (start : Int) : Option Int :=
  e.search zone maxIterations (start / 60000000000 + 1)

variable {e : Expression} {zone : Int → Int} {next m : Int} {n : Nat}

theorem Expression.search_some {minute : Int} (h : e.search zone n next = some minute) :
    next ≤ minute ∧ minute < next + n ∧ e.dueAt zone minute = true ∧
      ∀ m, next ≤ m → e.dueAt zone m = true → minute ≤ m := by
  induction n generalizing next with
  | zero => cases h
  | succ n ih =>
    rw [search] at h
    split at h
    case isTrue hdue =>
      cases h
      exact ⟨le_rfl, by omega, hdue, fun m hm _ => hm⟩
    case isFalse hnot =>
      obtain ⟨hle, hlt, hdue, hleast⟩ := ih h
      refine ⟨by omega, by omega, hdue, ?_⟩
      intro m hm hm'
      have hne : m ≠ next := by
        rintro rfl
        exact hnot hm'
      exact hleast m (by omega) hm'

theorem Expression.search_none (h : e.search zone n next = none)
    (hle : next ≤ m) (hlt : m < next + n) : e.dueAt zone m = false := by
  induction n generalizing next with
  | zero => omega
  | succ n ih =>
    rw [search] at h
    split at h
    · cases h
    case isFalse hnot =>
      by_cases hm : m = next
      · rw [hm]
        simpa using hnot
      · exact ih h (by omega) (by omega)

/-- Month and day of a day of a year that starts in March. -/
def monthDay (dayOfYear : Int) : Int × Int :=
  let month := (5 * dayOfYear + 2) / 153
  let day := dayOfYear - (153 * month + 2) / 5 + 1
  if month < 10 then (month + 3, day) else (month - 9, day)

section

variable {c k s d : Int} (hc : 0 ≤ c ∧ c ≤ 3) (hk : 0 ≤ k ∧ k ≤ 24) (hs : 0 ≤ s ∧ s ≤ 3)
  (hd : 0 ≤ d ∧ d ≤ 365) (hleap : d = 365 → s = 3 ∧ (k = 24 → c = 3))

include hc hk hs hd hleap

/-- From the centuries, the groups of four years, the years and the days of an era. -/
theorem yearOfEra_eq : let doe := 36524 * c + 1461 * k + 365 * s + d
    (doe - doe / 1460 + doe / 36524 - doe / 146096) / 365 = 100 * c + 4 * k + s := by
  intro doe
  have hcentury : doe / 36524 - doe / 146096 = c := by
    obtain ⟨r, hr⟩ : ∃ r, r = 1461 * k + 365 * s + d := ⟨_, rfl⟩
    have hdoe : doe = 36524 * c + r := by omega
    have hrange : 0 ≤ r ∧ r ≤ 36524 ∧ (r = 36524 → c = 3) := by omega
    clear_value doe
    clear hr hk hs hd hleap
    by_cases h : r = 36524
    · omega
    · have hdiv : doe / 36524 = c := by omega
      omega
  -- Years of 365 days are ahead by a day or none.
  obtain ⟨u, hquad, hrest⟩ : ∃ u, doe / 1460 = 25 * c + k + u ∧ 0 ≤ d - u ∧ d - u ≤ 364 := by
    by_cases h : 24 * c + k + 365 * s + d < 1460
    · exact ⟨0, by omega, by omega⟩
    · exact ⟨1, by omega, by omega⟩
  have hsum : doe - doe / 1460 + doe / 36524 - doe / 146096 =
    365 * (100 * c + 4 * k + s) + (d - u) := by omega
  rw [hsum]
  omega

theorem civilOfDays_eq (era : Int) :
    (civilOfDays (146097 * era + (36524 * c + 1461 * k + 365 * s + d) - 719468)).2 = monthDay d := by
  have hmod : (146097 * era + (36524 * c + 1461 * k + 365 * s + d)) % 146097 =
    36524 * c + 1461 * k + 365 * s + d := by omega
  have hfour : (100 * c + 4 * k + s) / 4 = 25 * c + k := by omega
  have hhundred : (100 * c + 4 * k + s) / 100 = c := by omega
  have hday : 36524 * c + 1461 * k + 365 * s + d - (365 * (100 * c + 4 * k + s) + (25 * c + k) - c) =
    d := by omega
  simp only [civilOfDays, Int.sub_add_cancel, hmod, yearOfEra_eq hc hk hs hd hleap, hfour, hhundred, hday,
    monthDay]
  split
  · rfl
  · rfl

end

/-- A day is the `d`th of a year whose days have the months and days of every year. -/
theorem exists_year (days : Int) : ∃ d, 0 ≤ d ∧ d ≤ 365 ∧ ∀ d', 0 ≤ d' → d' ≤ 364 ∨ d' = d →
    (civilOfDays (days - d + d')).2 = monthDay d' := by
  obtain ⟨z, hz⟩ : ∃ z, z = (days + 719468) % 146097 := ⟨_, rfl⟩
  obtain ⟨c, hc⟩ : ∃ c, c = min (z / 36524) 3 := ⟨_, rfl⟩
  obtain ⟨k, hk⟩ : ∃ k, k = (z - 36524 * c) / 1461 := ⟨_, rfl⟩
  obtain ⟨s, hs⟩ : ∃ s, s = min ((z - 36524 * c - 1461 * k) / 365) 3 := ⟨_, rfl⟩
  refine ⟨z - 36524 * c - 1461 * k - 365 * s, by omega, by omega, fun d' hd' hle => ?_⟩
  rw [← @civilOfDays_eq c k s d' (by omega) (by omega) (by omega) (by omega) (by omega)
    ((days + 719468) / 146097)]
  congr 2
  omega

/-- The date is due on every day of the week, or the day of the week on every date of the month. -/
theorem isDue_parsed {t : WallTime} {text : Bytes} (h : parseExpression text = .ok e)
    (hdue : e.isDue t = true) :
    (∀ y w, 0 ≤ w → w ≤ 6 → e.isDue { t with year := y, weekday := w } = true) ∨
      ∀ y d, 1 ≤ d → d ≤ 31 → e.isDue { t with year := y, day := d } = true := by
  have hall : ∀ {name field min max values}, parseNamed name field min max = .ok values →
      field = Bytes.ascii "*" → values = makeRange min max 1 := by
    intro name field min max values hparsed hstar
    rw [parseNamed, hstar, parseField, if_pos rfl] at hparsed
    exact (Except.ok.inj hparsed).symm
  have hdays : ∀ d : Int, 1 ≤ d → d ≤ 31 → d ∈ makeRange 1 31 1 := by
    intro d hge hle
    interval_cases d <;> decide
  have hweekdays : ∀ w : Int, 0 ≤ w → w ≤ 6 → w ∈ makeRange 0 6 1 := by
    intro w hge hle
    interval_cases w <;> decide
  have hok : ∀ {α β : Type} {x : Except ParseError α} {f : α → Except ParseError β} {b : β},
      x >>= f = .ok b → ∃ a, x = .ok a ∧ f a = .ok b := by
    intro α β x f b h
    cases x with
    | error err => cases h
    | ok a => exact ⟨a, rfl, h⟩
  simp only [parseExpression] at h
  split at h
  case h_2 => cases h
  case h_1 minute hour third fourth fifth hwords =>
    obtain ⟨minutes, -, h⟩ := hok h
    obtain ⟨hours, -, h⟩ := hok h
    obtain ⟨daysOfMonth, hthird, h⟩ := hok h
    obtain ⟨months, -, h⟩ := hok h
    obtain ⟨daysOfWeek, hfifth, h⟩ := hok h
    obtain rfl := Except.ok.inj h
    simp [Expression.isDue, hwords] at hdue ⊢
    obtain ⟨hminute, hhour, hmonth, hday⟩ := hdue
    by_cases hdate : third = Bytes.ascii "*"
    · simp only [hdate, not_true_eq_false, false_and, if_false] at hday ⊢
      exact .inr fun d hge hle => ⟨hminute, hhour, hmonth,
        .inr (hall hthird hdate ▸ hdays d hge hle), hday.2⟩
    by_cases hweek : fifth = Bytes.ascii "*"
    · simp only [hweek, not_true_eq_false, and_false, if_false] at hday ⊢
      exact .inl fun w hge hle => ⟨hminute, hhour, hmonth, hday.1,
        .inr (hall hfifth hweek ▸ hweekdays w hge hle)⟩
    · simp only [hdate, hweek, not_false_eq_true, and_self, if_true] at hday ⊢
      rcases hday with hday | hday
      · exact .inl fun w _ _ => ⟨hminute, hhour, hmonth, .inl hday⟩
      · exact .inr fun d _ _ => ⟨hminute, hhour, hmonth, .inr hday⟩

/-- A year that starts within the next 366 days, and the day of its own year that a sample is. -/
theorem exists_next_year (days sample : Int) : ∃ d start, 0 ≤ d ∧ d ≤ 365 ∧
    (civilOfDays sample).2 = monthDay d ∧ days < start ∧ start ≤ days + 366 ∧
      ∀ d', 0 ≤ d' → d' ≤ 364 → (civilOfDays (start + d')).2 = monthDay d' := by
  obtain ⟨d, hd, hle, hsample⟩ := exists_year sample
  obtain ⟨late, hlate, hle', hdates⟩ := exists_year (days + 366)
  have hdate := hsample d hd (.inr rfl)
  rw [Int.sub_add_cancel] at hdate
  exact ⟨d, days + 366 - late, hd, hle, hdate, by omega, by omega, fun d' h h' => hdates d' h (.inl h')⟩

theorem exists_date (days : Int) {sample : Int} (h : (civilOfDays sample).2 ≠ (2, 29)) :
    ∃ later, days < later ∧ later ≤ days + 730 ∧ (civilOfDays later).2 = (civilOfDays sample).2 := by
  obtain ⟨d, start, hd, hle, hsample, hlt, hstart, hdates⟩ := exists_next_year days sample
  have hcommon : d ≤ 364 := by
    by_contra hlast
    obtain rfl : d = 365 := by omega
    exact h hsample
  exact ⟨start + d, by omega, by omega, (hdates d hd hcommon).trans hsample.symm⟩

theorem exists_weekday (days sample : Int) {w : Int} (hw : 0 ≤ w ∧ w ≤ 6) :
    ∃ later, days < later ∧ later ≤ days + 730 ∧ (civilOfDays later).2.1 = (civilOfDays sample).2.1 ∧
      (1 ≤ (civilOfDays later).2.2 ∧ (civilOfDays later).2.2 ≤ 31) ∧ (later + 4) % 7 = w := by
  obtain ⟨d, start, hd, hle, hsample, hlt, hstart, hdates⟩ := exists_next_year days sample
  obtain ⟨month, hmonth⟩ : ∃ month, month = (5 * d + 2) / 153 := ⟨_, rfl⟩
  -- One of the first seven days of the month.
  obtain ⟨j, hj⟩ : ∃ j, j = (w - (start + (153 * month + 2) / 5 + 4)) % 7 := ⟨_, rfl⟩
  have hsame : (5 * ((153 * month + 2) / 5 + j) + 2) / 153 = month := by omega
  have hlater := hdates ((153 * month + 2) / 5 + j) (by omega) (by omega)
  refine ⟨start + ((153 * month + 2) / 5 + j), by omega, by omega, ?_, ?_, by omega⟩
  · rw [hlater, hsample]
    simp only [monthDay, hsame, ← hmonth]
    split
    · rfl
    · rfl
  · rw [hlater]
    simp only [monthDay, hsame]
    split
    · exact ⟨by omega, by omega⟩
    · exact ⟨by omega, by omega⟩

theorem wallTime_eq {t days seconds : Int} (hseconds : 0 ≤ seconds ∧ seconds < 86400)
    (h : t + zone t = 86400 * days + seconds) :
    wallTime zone t = ⟨(civilOfDays days).1, (civilOfDays days).2.1, (civilOfDays days).2.2,
      (days + 4) % 7, seconds / 3600, seconds % 3600 / 60⟩ := by
  have hdays : (86400 * days + seconds) / 86400 = days := by omega
  have hmod : (86400 * days + seconds) % 86400 = seconds := by omega
  simp only [wallTime, h, hdays, hmod]

/-- An expression that is ever due on another day than a 29th of February is due again within
three years, in a zone that shows the time of day on every day. -/
theorem exists_due {text : Bytes} {sample : Int} (hparsed : parseExpression text = .ok e)
    (hzone : ∀ t, -86400 ≤ zone t ∧ zone t ≤ 86400) (hdue : e.dueAt zone sample = true)
    (hdate : ((wallTime zone (60 * sample)).month, (wallTime zone (60 * sample)).day) ≠ (2, 29))
    (hshown : ∀ day, ∃ m, 60 * m + zone (60 * m) =
      86400 * day + (60 * sample + zone (60 * sample)) % 86400) (next : Int) :
    ∃ m, next ≤ m ∧ m < next + 4 * 365 * 24 * 60 ∧ e.dueAt zone m = true := by
  obtain ⟨seconds, hseconds⟩ : ∃ s, s = (60 * sample + zone (60 * sample)) % 86400 := ⟨_, rfl⟩
  obtain ⟨days, hdays⟩ : ∃ d, d = (60 * sample + zone (60 * sample)) / 86400 := ⟨_, rfl⟩
  have hrange : 0 ≤ seconds ∧ seconds < 86400 := by omega
  rw [← hseconds] at hshown
  rw [@wallTime_eq _ _ days seconds hrange (by omega)] at hdate
  rw [Expression.dueAt, @wallTime_eq _ _ days seconds hrange (by omega)] at hdue
  rcases isDue_parsed hparsed hdue with hdue | hdue
  · obtain ⟨later, hlt, hle, hsame⟩ := exists_date (next / 1440 + 1) hdate
    obtain ⟨m, hm⟩ := hshown later
    have hz := hzone (60 * m)
    refine ⟨m, by omega, by omega, ?_⟩
    rw [Expression.dueAt, wallTime_eq hrange hm, hsame]
    exact hdue _ _ (by omega) (by omega)
  · obtain ⟨later, hlt, hle, hmonth, hday, hweekday⟩ :=
      @exists_weekday (next / 1440 + 1) days ((days + 4) % 7) (by omega)
    obtain ⟨m, hm⟩ := hshown later
    have hz := hzone (60 * m)
    refine ⟨m, by omega, by omega, ?_⟩
    rw [Expression.dueAt, wallTime_eq hrange hm, hmonth, hweekday]
    exact hdue _ _ hday.1 hday.2

def leapDays : Expression := ⟨[0], [0], [29], [2], makeRange 0 6 1, Bytes.ascii "0 0 29 2 *"⟩

theorem leapDays_dueAt (h : leapDays.dueAt (fun _ => 0) m = true) :
    m % 1440 = 0 ∧ (civilOfDays (m / 1440)).2 = (2, 29) := by
  have hday : 60 * m / 86400 = m / 1440 := by omega
  have hwords : Space.words (.ascii "0 0 29 2 *") =
    [.ascii "0", .ascii "0", .ascii "29", .ascii "2", .ascii "*"] := by decide
  simp [Expression.dueAt, Expression.isDue, wallTime, leapDays, hday, hwords] at h
  exact ⟨by omega, Prod.ext h.2.2.1 h.2.2.2.1⟩

end Scheduling
