import NetworkCode.Weather.Forecast

/-!
# A crawl that raises

`process_item` writes each field of the hash as soon as it has it, so a record that cannot be
made leaves those before it behind: the forecast is then mixed from two crawls. Its loop over
the days assigns to the variable that it returns. All or nothing is thus kept only where there
are no days, or where what is written before the exception was in the hash already.
-/

namespace NetworkCode.Weather

open Text

variable {store weather : Store} {item : Item} {rows : List Row} {records : List Bytes}

/-- The whole forecast of the item is in the hash. -/
structure Item.StoredIn (item : Item) (weather : Store) : Prop where
  city : ∃ city, item.city.head? = some city ∧ weather cityKey = some (utf8 city)
  uptime : ∃ upDate upTime, item.upDate.head? = some upDate ∧ item.upTime.head? = some upTime ∧
    weather uptimeKey = some (utf8 upDate ++ utf8 upTime)
  days : weather daysKey = some (digits item.days)
  day : ∀ i < item.days, ∃ txt, weather (dateKey i) = some txt ∧ item.Combines i txt

/-- `process_item` returns its item with the forecast stored, or raises and changes nothing. -/
def AllOrNothing (store : Store) (item : Item) : Prop :=
  (processItem store item).2 = some (.item item) ∧ item.StoredIn (processItem store item).1 ∨
    (processItem store item).2 = none ∧ (processItem store item).1 = store

/-- A row without a record, and the hash has what is written before the loop comes to it. -/
structure Item.Repeats (item : Item) (store : Store) (city upDate upTime : Str)
    (before : List Row) (failing : Row) (after : List Row) : Prop where
  rows : item.rows = before ++ failing :: after
  fails : record failing = none
  city : store cityKey = some (utf8 city)
  uptime : store uptimeKey = some (utf8 upDate ++ utf8 upTime)
  day : ∃ records, before.mapM record = some records ∧
    ∀ i < records.length, store (dateKey i) = records[i]?

/-- There is nothing to store, or what is stored before an exception is in the hash already. -/
def Item.Harmless (item : Item) (store : Store) : Prop :=
  match item.city, item.upDate, item.upTime with
  | [], _, _ => True
  | city :: _, upDate :: _, upTime :: _ =>
    item.rows = [] ∨
      ∃ before failing after, item.Repeats store city upDate upTime before failing after
  | city :: _, _, _ => store cityKey = some (utf8 city)

/-- Either all rows have records, or there is a first one that has none. -/
theorem mapM_record_cases (rows : List Row) :
    (∃ records, rows.mapM record = some records) ∨
      ∃ before failing after records, rows = before ++ failing :: after ∧
        before.mapM record = some records ∧ record failing = none := by
  induction rows with
  | nil => exact .inl ⟨[], rfl⟩
  | cons row rows ih =>
    cases htxt : record row with
    | none => exact .inr ⟨[], row, rows, [], rfl, rfl, htxt⟩
    | some txt =>
      rcases ih with ⟨records, hrecords⟩ | ⟨before, failing, after, records, rfl, hrecords, hnone⟩
      · exact .inl ⟨txt :: records, by simp [List.mapM_cons, htxt, hrecords]⟩
      · refine .inr ⟨row :: before, failing, after, txt :: records, rfl, ?_, hnone⟩
        simp [List.mapM_cons, htxt, hrecords]

/-- The three fields that are no days. -/
theorem cityKey_ne_uptimeKey : cityKey ≠ uptimeKey := by decide

/-- The field of a day is not that of the city. -/
theorem dateKey_ne_cityKey (i : Nat) : dateKey i ≠ cityKey := by
  intro h
  exact absurd (congrArg List.head? h) (by simp [dateKey, cityKey, ascii])

/-- The field of a day is not that of the time. -/
theorem dateKey_ne_uptimeKey (i : Nat) : dateKey i ≠ uptimeKey := by
  intro h
  exact absurd (congrArg List.head? h) (by simp [dateKey, uptimeKey, ascii])

/-- Two fields and a table of records that are written change nothing exactly when they have
their values already. -/
theorem stored_eq_self_iff {city uptime : Bytes} {store' : Store}
    (hnew : ∀ i < records.length, store' (dateKey i) = records[i]?)
    (hold : ∀ key, (∀ i < records.length, key ≠ dateKey i) → store' key =
      Function.update (Function.update store cityKey (some city)) uptimeKey (some uptime) key) :
    store' = store ↔ store cityKey = some city ∧ store uptimeKey = some uptime ∧
      ∀ i < records.length, store (dateKey i) = records[i]? := by
  have hcity : store' cityKey = some city := by
    rw [hold cityKey fun i _ => (dateKey_ne_cityKey i).symm,
      Function.update_of_ne cityKey_ne_uptimeKey, Function.update_self]
  have huptime : store' uptimeKey = some uptime := by
    rw [hold uptimeKey fun i _ => (dateKey_ne_uptimeKey i).symm, Function.update_self]
  constructor
  · rintro rfl
    exact ⟨hcity, huptime, hnew⟩
  · rintro ⟨hc, hu, hd⟩
    funext key
    by_cases hday : ∃ i < records.length, key = dateKey i
    · obtain ⟨i, hi, rfl⟩ := hday
      rw [hnew i hi, hd i hi]
    · push Not at hday
      rw [hold key hday]
      by_cases hkey : key = uptimeKey
      · rw [hkey, Function.update_self, hu]
      · rw [Function.update_of_ne hkey]
        by_cases hkey : key = cityKey
        · rw [hkey, Function.update_self, hc]
        · rw [Function.update_of_ne hkey]

section

variable {city upDate upTime : Str} {cities upDates upTimes : List Str}

/-- Without days the whole forecast is stored, and the loop variable is still the item. -/
theorem allOrNothing_of_no_rows (hcity : item.city = city :: cities)
    (hupDate : item.upDate = upDate :: upDates) (hupTime : item.upTime = upTime :: upTimes)
    (hrows : item.rows = []) : AllOrNothing store item := by
  have hdays : item.days = 0 := by rw [← length_rows, hrows, List.length_nil]
  have hrun : processItem store item = (Function.update (Function.update (Function.update store
      cityKey (some (utf8 city))) uptimeKey (some (utf8 upDate ++ utf8 upTime))) daysKey
      (some (digits 0)), some (.item item)) := by
    simp only [processItem, hcity, hupDate, hupTime, hrows, storeDays]
  have huptime : uptimeKey ≠ daysKey := by decide
  have hcityKey : cityKey ≠ daysKey := by decide
  refine .inl ⟨by rw [hrun], ?_⟩
  simp only [hrun]
  refine ⟨⟨city, by rw [hcity]; rfl, ?_⟩, ⟨upDate, upTime, by rw [hupDate]; rfl,
    by rw [hupTime]; rfl, ?_⟩, ?_, ?_⟩
  · rw [Function.update_of_ne hcityKey, Function.update_of_ne cityKey_ne_uptimeKey,
      Function.update_self]
  · rw [Function.update_of_ne huptime, Function.update_self]
  · rw [Function.update_self, hdays]
  · intro i hi
    omega

/-- With a record for every day the last row is returned in place of the item. -/
theorem not_allOrNothing_of_records (hcity : item.city = city :: cities)
    (hupDate : item.upDate = upDate :: upDates) (hupTime : item.upTime = upTime :: upTimes)
    (hrows : item.rows ≠ []) (hrecords : item.rows.mapM record = some records) :
    ¬ AllOrNothing store item := by
  obtain ⟨row, hlast⟩ : ∃ row, item.rows.getLast? = some row :=
    ⟨_, List.getLast?_eq_some_getLast hrows⟩
  obtain ⟨store', hrun, -, -⟩ := storeDays_append hrecords
    (Function.update (Function.update store cityKey (some (utf8 city))) uptimeKey
      (some (utf8 upDate ++ utf8 upTime))) 0 (.item item) []
  rw [List.append_nil, hlast, storeDays] at hrun
  have hreturned : (processItem store item).2 = some (.row row) := by
    simp only [processItem, hcity, hupDate, hupTime, hrun, Option.map_some, Option.getD_some]
  rintro (⟨hitem, -⟩ | ⟨hnone, -⟩)
  · rw [hreturned] at hitem
    cases hitem
  · rw [hreturned] at hnone
    cases hnone

/-- With a day that has no record, `process_item` raises, and the hash is as it was exactly when
it had what was written before. -/
theorem allOrNothing_of_failing_iff {before after : List Row} {failing : Row}
    (hcity : item.city = city :: cities) (hupDate : item.upDate = upDate :: upDates)
    (hupTime : item.upTime = upTime :: upTimes) (hrows : item.rows = before ++ failing :: after)
    (hfails : record failing = none) (hrecords : before.mapM record = some records) :
    AllOrNothing store item ↔
      store cityKey = some (utf8 city) ∧ store uptimeKey = some (utf8 upDate ++ utf8 upTime) ∧
        ∀ i < records.length, store (dateKey i) = records[i]? := by
  obtain ⟨store', hrun, hnew, hold⟩ := storeDays_append hrecords
    (Function.update (Function.update store cityKey (some (utf8 city))) uptimeKey
      (some (utf8 upDate ++ utf8 upTime))) 0 (.item item) (failing :: after)
  simp only [Nat.zero_add] at hnew hold
  have hraised : processItem store item = (store', none) := by
    simp only [processItem, hcity, hupDate, hupTime, hrows, hrun, storeDays, hfails]
  rw [← stored_eq_self_iff hnew hold, AllOrNothing, hraised]
  simp

end

/-- All or nothing is kept exactly where there is nothing to store, or where what is stored
before an exception is in the hash already. -/
theorem allOrNothing_iff_harmless (store : Store) (item : Item) :
    AllOrNothing store item ↔ item.Harmless store := by
  cases hcity : item.city with
  | nil =>
    refine iff_of_true (.inr ?_) (by simp only [Item.Harmless, hcity])
    simp only [processItem, hcity, and_self]
  | cons city cities =>
    -- An exception in front of the loop: the city alone has been written.
    have hearly : item.upDate = [] ∨ item.upTime = [] →
        (AllOrNothing store item ↔ item.Harmless store) := by
      intro hempty
      have hraised : processItem store item =
          (Function.update store cityKey (some (utf8 city)), none) := by
        unfold processItem
        rcases hempty with he | he <;> simp only [hcity, he]
        cases item.upDate <;> rfl
      have hharmless : item.Harmless store ↔ store cityKey = some (utf8 city) := by
        unfold Item.Harmless
        rcases hempty with he | he <;> simp only [hcity, he]
        cases item.upDate <;> exact Iff.rfl
      rw [hharmless, AllOrNothing, hraised]
      simp [eq_comm]
    cases hupDate : item.upDate with
    | nil => exact hearly (.inl hupDate)
    | cons upDate upDates =>
      cases hupTime : item.upTime with
      | nil => exact hearly (.inr hupTime)
      | cons upTime upTimes =>
        simp only [Item.Harmless, hcity, hupDate, hupTime]
        by_cases hrows : item.rows = []
        · exact iff_of_true (allOrNothing_of_no_rows hcity hupDate hupTime hrows) (.inl hrows)
        rw [or_iff_right hrows]
        constructor
        · intro h
          rcases mapM_record_cases item.rows with
            ⟨records, hrecords⟩ | ⟨before, failing, after, records, hsplit, hrecords, hfails⟩
          · exact absurd h (not_allOrNothing_of_records hcity hupDate hupTime hrows hrecords)
          · obtain ⟨hc, hu, hd⟩ := (allOrNothing_of_failing_iff hcity hupDate hupTime hsplit hfails
              hrecords).mp h
            exact ⟨before, failing, after, hsplit, hfails, hc, hu, records, hrecords, hd⟩
        · rintro ⟨before, failing, after, hsplit, hfails, hc, hu, records, hrecords, hd⟩
          exact (allOrNothing_of_failing_iff hcity hupDate hupTime hsplit hfails hrecords).mpr
            ⟨hc, hu, hd⟩

/-- Two days, of which the second has no slash in its temperatures. -/
def torn : Item where
  city := [['x']]
  upDate := [['1']]
  upTime := [['2']]
  date := [['0', '5'], ['0', '6']]
  dayDesc := [['r'], ['s'], ['t'], ['u']]
  dayTemp := [['9', '/', '1'], ['8']]

/-- A forecast that can be stored is not returned, and one that cannot leaves its first day among
those of the crawl before. -/
theorem torn_forecast :
    ¬ AllOrNothing yesterday today ∧ ¬ AllOrNothing yesterday torn := by
  constructor
  · have hrow : (processItem yesterday today).2 = some (.row (['0', '5'], ['s'], ['r'],
        ['9', '/', '1'])) := by decide +kernel
    rintro (⟨hitem, -⟩ | ⟨hnone, -⟩)
    · rw [hrow] at hitem
      cases hitem
    · rw [hrow] at hnone
      cases hnone
  · have hraised : (processItem yesterday torn).2 = none := by decide +kernel
    have hmixed : (processItem yesterday torn).1 (dateKey 0) ≠ yesterday (dateKey 0) := by
      decide +kernel
    rintro (⟨hitem, -⟩ | ⟨-, hsame⟩)
    · rw [hraised] at hitem
      cases hitem
    · exact hmixed (by rw [hsame])

end NetworkCode.Weather
