import NetworkCode.Core.Lists
import NetworkCode.Weather.State

/-!
# The forecast in the mail

`process_item` of the crawler stores a record for each day in a numbered field of the hash
`weather`, and how many there are in the field `days`. The fields of an earlier crawl stay
behind those of a shorter one. `ShowWeather.py` puts together as many records as `days`
says. A unicode string is a list of characters; the file `wea.txt` is left out.
-/

namespace NetworkCode.Weather

open Text

/-! ## The crawler -/

/-- A `unicode` string. -/
abbrev Str := List Char

/-- `WeatherItem`. -/
structure Item where
  city : List Str
  upDate : List Str
  upTime : List Str
  date : List Str
  dayDesc : List Str
  dayTemp : List Str
  deriving DecidableEq, Repr

/-- An element of `weaitem`: date, description of the day and of the night, temperatures. -/
abbrev Row := Str × Str × Str × Str

/-- What the variable `item` has when `process_item` returns it: its loop assigns to it. -/
inductive Returned where
  | item (item : Item)
  | row (row : Row)
  deriving DecidableEq, Repr

/-- `encode('utf-8')`. -/
def utf8 (s : Str) : Bytes := s.flatMap String.utf8EncodeChar

/-- A string of ASCII characters. -/
def Printable (s : Str) : Prop := ∀ c ∈ s, c.toNat < 128

instance (s : Str) : Decidable (Printable s) := List.decidableBAll _ s

/-- What `format` makes of a `unicode` argument: it raises on other characters. -/
def pyFormat (s : Str) : Option Bytes := if Printable s then some (utf8 s) else none

/-- `l[0::2]`. -/
def everySecond {α : Type*} : List α → List α
  | [] => []
  | [a] => [a]
  | a :: _ :: l => a :: everySecond l

/-- The fields of the hash `weather`. -/
def cityKey : Bytes := ascii "city"
def uptimeKey : Bytes := ascii "uptime"
def daysKey : Bytes := ascii "days"
def dateKey (i : Nat) : Bytes := ascii "date-" ++ digits i

/-- The text of a day. -/
def dayText (d dd dt nd nt : Bytes) : Bytes :=
  ascii "date:" ++ d ++ ascii "\t\tday:" ++ dd ++ ascii "(" ++ dt ++ ascii ")\t\tnight:" ++ nd ++
    ascii "(" ++ nt ++ ascii ")\n\n"

/-- The record of a day; there is none when the temperatures have no slash or the date does not
go through `format`. -/
def record : Row → Option Bytes
  | (d, dd, nd, temps) =>
    let ta := temps.splitOn '/'
    ta[0]?.bind fun dt => ta[1]?.bind fun nt => (pyFormat d).map fun d =>
      dayText d (utf8 dd) (utf8 dt) (utf8 nd) (utf8 nt)

/-- The loop of `process_item`: the store behind it, and `count` and `item` unless it raises. -/
def storeDays (store : Store) (count : Nat) (item : Returned) :
    List Row → Store × Option (Nat × Returned)
  | [] => (store, some (count, item))
  | row :: rows =>
    match record row with
    | none => (store, none)
    | some txt =>
      storeDays (Function.update store (dateKey count) (some txt)) (count + 1) (.row row) rows

/-- `weaitem`. -/
def Item.rows (item : Item) : List Row :=
  item.date.zip ((everySecond (item.dayDesc.drop 1)).zip
    ((everySecond item.dayDesc).zip item.dayTemp))

/-- `process_item`: the store behind it, and what it returns unless it raises. -/
def processItem (store : Store) (item : Item) : Store × Option Returned :=
  match item.city with
  | [] => (store, none)
  | city :: _ =>
    let store := Function.update store cityKey (some (utf8 city))
    match item.upDate, item.upTime with
    | upDate :: _, upTime :: _ =>
      let store := Function.update store uptimeKey (some (utf8 upDate ++ utf8 upTime))
      match storeDays store 0 (.item item) item.rows with
      | (store, none) => (store, none)
      | (store, some (count, item)) =>
        (Function.update store daysKey (some (digits count)), some item)
    | _, _ => (store, none)

/-! ## The mail -/

/-- What `send_mail` is called with. -/
structure Mail where
  toList : List Bytes
  content : Bytes
  deriving DecidableEq, Repr

/-- The loop over the users. -/
def recipients (user : Store) (users : Int) : List Bytes :=
  (List.range users.toNat).map fun i => replaceAt (pyStr (user (userKey i)))

/-- The loop over the days; a missing field raises. -/
def forecast (weather : Store) (count : Int) : Option Bytes :=
  (List.range count.toNat).foldlM (fun day i => (weather (dateKey i)).map fun txt => day ++ txt) []

/-- `ShowWeather.py` on the hashes `weather` and `user`; an exception ends it. -/
def showWeather (weather user : Store) : Option Mail :=
  ((weather daysKey).bind pyInt).bind fun count =>
    ((user userCount).bind pyInt).bind fun users =>
      (forecast weather count).map fun day => ⟨recipients user users, day⟩

/-! ## What the mail should be -/

/-- How many days an item has. -/
def Item.days (item : Item) : Nat :=
  min (min item.date.length (item.dayDesc.length / 2))
    (min ((item.dayDesc.length + 1) / 2) item.dayTemp.length)

/-- The text of the day `i` of an item: its date, its two descriptions, and the temperatures
before and behind the slash. -/
def Item.Combines (item : Item) (i : Nat) (txt : Bytes) : Prop :=
  ∃ d dd nd dt rest, item.date[i]? = some d ∧ item.dayDesc[2 * i + 1]? = some dd ∧
    item.dayDesc[2 * i]? = some nd ∧ item.dayTemp[i]? = some (dt ++ '/' :: rest) ∧ '/' ∉ dt ∧
      txt = dayText (utf8 d) (utf8 dd) (utf8 dt) (utf8 nd) (utf8 (rest.takeWhile (· ≠ '/')))

variable {store weather : Store} {item : Item} {kept : Returned} {rows : List Row}
  {records : List Bytes} {i n count : Nat}

/-! ## The records of the days -/

/-- Every second element of a list, from the first one on. -/
theorem everySecond_spec {α : Type*} (l : List α) :
    (everySecond l).length = (l.length + 1) / 2 ∧ ∀ i, (everySecond l)[i]? = l[2 * i]? := by
  fun_induction everySecond l with
  | case1 => simp
  | case2 a =>
    refine ⟨by simp, fun i => ?_⟩
    cases i <;> simp
  | case3 a b l ih =>
    refine ⟨by simp only [List.length_cons, ih.1]; omega, fun i => ?_⟩
    cases i with
    | zero => rfl
    | succ i =>
      rw [List.getElem?_cons_succ, ih.2, Nat.mul_succ]
      rfl

/-- There are as many rows as days. -/
theorem length_rows (item : Item) : item.rows.length = item.days := by
  simp only [Item.rows, Item.days, List.length_zip, (everySecond_spec _).1, List.length_drop]
  omega

/-- What a row has of each list. -/
theorem getElem?_rows {row : Row} (h : item.rows[i]? = some row) :
    item.date[i]? = some row.1 ∧ item.dayDesc[2 * i + 1]? = some row.2.1 ∧
      item.dayDesc[2 * i]? = some row.2.2.1 ∧ item.dayTemp[i]? = some row.2.2.2 := by
  obtain ⟨hdate, hrest⟩ := List.getElem?_zip_eq_some.mp h
  obtain ⟨hday, hrest⟩ := List.getElem?_zip_eq_some.mp hrest
  obtain ⟨hnight, htemp⟩ := List.getElem?_zip_eq_some.mp hrest
  rw [(everySecond_spec _).2, List.getElem?_drop] at hday
  rw [(everySecond_spec _).2] at hnight
  exact ⟨hdate, by rw [Nat.add_comm]; exact hday, hnight, htemp⟩

/-- The first piece is what stands before the separator. -/
theorem getElem?_zero_splitOn (s : Str) :
    (s.splitOn '/')[0]? = some (s.takeWhile (· ≠ '/')) := by
  by_cases hslash : '/' ∈ s
  · obtain ⟨a, b, rfl, ha⟩ := List.eq_append_cons_of_mem hslash
    rw [List.splitOn_append_cons_self_of_not_mem ha, List.getElem?_cons_zero,
      List.takeWhile_append_of_pos]
    · simp
    · intro c hc
      have hne : c ≠ '/' := fun he => ha (he ▸ hc)
      simpa using hne
  · rw [List.splitOn_eq_singleton hslash, List.getElem?_cons_zero, eq_comm, Option.some.injEq,
      List.takeWhile_eq_self_iff]
    intro c hc
    have hne : c ≠ '/' := fun he => hslash (he ▸ hc)
    simpa using hne

/-- A day with a printable date and a slash in its temperatures has a record. -/
theorem exists_record {d temps : Str} (dd nd : Str) (hprint : Printable d)
    (hslash : '/' ∈ temps) : ∃ dt rest, temps = dt ++ '/' :: rest ∧ '/' ∉ dt ∧
      record (d, dd, nd, temps) = some (dayText (utf8 d) (utf8 dd) (utf8 dt) (utf8 nd)
        (utf8 (rest.takeWhile (· ≠ '/')))) := by
  obtain ⟨dt, rest, rfl, hdt⟩ := List.eq_append_cons_of_mem hslash
  refine ⟨dt, rest, rfl, hdt, ?_⟩
  simp only [record, List.splitOn_append_cons_self_of_not_mem hdt, List.getElem?_cons_zero,
    List.getElem?_cons_succ, getElem?_zero_splitOn, Option.bind_some, pyFormat, if_pos hprint,
    Option.map_some]

/-- Each row of an item in the claimed form has a record, which combines its day. -/
theorem Item.exists_records (hprint : ∀ d ∈ item.date, Printable d)
    (hslash : ∀ temps ∈ item.dayTemp, '/' ∈ temps) :
    ∃ records, item.rows.mapM record = some records ∧ records.length = item.days ∧
      ∀ i < item.days, ∃ txt, records[i]? = some txt ∧ item.Combines i txt := by
  have hrow (i : Nat) (row : Row) (hget : item.rows[i]? = some row) :
      ∃ txt, record row = some txt ∧ item.Combines i txt := by
    obtain ⟨hdate, hday, hnight, htemp⟩ := getElem?_rows hget
    obtain ⟨dt, rest, htemps, hdt, hrecord⟩ := exists_record row.2.1 row.2.2.1
      (hprint _ (List.mem_of_getElem? hdate)) (hslash _ (List.mem_of_getElem? htemp))
    exact ⟨_, hrecord, row.1, row.2.1, row.2.2.1, dt, rest, hdate, hday, hnight, htemps ▸ htemp,
      hdt, rfl⟩
  have hne : item.rows.mapM record ≠ none := by
    refine mapM_ne_none_iff.mpr fun row hmem => ?_
    obtain ⟨i, hget⟩ := List.getElem?_of_mem hmem
    obtain ⟨txt, htxt, -⟩ := hrow i row hget
    exact htxt ▸ Option.some_ne_none txt
  obtain ⟨records, hrecords⟩ := Option.ne_none_iff_exists'.mp hne
  have hmap := mapM_eq_some_iff.mp hrecords
  have hlen : records.length = item.days := by
    have hlen := congrArg List.length hmap
    rw [List.length_map, List.length_map, length_rows] at hlen
    exact hlen.symm
  refine ⟨records, hrecords, hlen, fun i hi => ?_⟩
  obtain ⟨row, hget⟩ : ∃ row, item.rows[i]? = some row :=
    ⟨_, List.getElem?_eq_getElem (by rw [length_rows]; exact hi)⟩
  obtain ⟨txt, htxt, hcombines⟩ := hrow i row hget
  refine ⟨txt, ?_, hcombines⟩
  have hat := congrArg (fun l => l[i]?) hmap
  simp only [List.getElem?_map, hget, Option.map_some, htxt] at hat
  obtain ⟨txt', hsome, he⟩ := Option.map_eq_some_iff.mp hat.symm
  rw [hsome, Option.some.inj he]

/-! ## Storing and reading the records -/

/-- Two days have different fields. -/
theorem dateKey_inj {i j : Nat} : dateKey i = dateKey j ↔ i = j := by
  rw [dateKey, dateKey, List.append_cancel_left_eq, digits_inj]

/-- The field of a day is not that of their number. -/
theorem dateKey_ne_daysKey (i : Nat) : dateKey i ≠ daysKey := by
  intro h
  have hsecond := congrArg (fun l => l[2]?) h
  exact absurd hsecond (by simp [dateKey, daysKey, ascii])

/-- Over rows that have records the loop stores these under the next numbers and nothing else,
and its variable is left with the last row. -/
theorem storeDays_append (hrecords : rows.mapM record = some records) (store : Store)
    (count : Nat) (kept : Returned) (rest : List Row) :
    ∃ store', storeDays store count kept (rows ++ rest) = storeDays store'
        (count + records.length) ((rows.getLast?.map Returned.row).getD kept) rest ∧
      (∀ i < records.length, store' (dateKey (count + i)) = records[i]?) ∧
      ∀ key, (∀ i < records.length, key ≠ dateKey (count + i)) → store' key = store key := by
  induction rows generalizing store count kept records with
  | nil =>
    obtain rfl : [] = records := Option.some.inj hrecords
    exact ⟨store, rfl, fun i hi => absurd hi (Nat.not_lt_zero i), fun _ _ => rfl⟩
  | cons row rows ih =>
    rw [List.mapM_cons] at hrecords
    obtain ⟨txt, htxt, hrest⟩ := Option.bind_eq_some_iff.mp hrecords
    obtain ⟨txts, htxts, hcons⟩ := Option.bind_eq_some_iff.mp hrest
    obtain rfl : txt :: txts = records := Option.some.inj hcons
    obtain ⟨store', hrun, hnew, hold⟩ := ih htxts
      (Function.update store (dateKey count) (some txt)) (count + 1) (.row row)
    have hcount : count + 1 + txts.length = count + (txt :: txts).length := by
      rw [List.length_cons]
      omega
    have hlast : ((row :: rows).getLast?.map Returned.row).getD kept =
        (rows.getLast?.map Returned.row).getD (.row row) := by
      rw [List.getLast?_cons]
      cases rows.getLast? <;> rfl
    have hkey (i : Nat) : count + (i + 1) = count + 1 + i := by omega
    refine ⟨store', ?_, fun i hi => ?_, fun key hne => ?_⟩
    · rw [hlast, ← hcount, ← hrun, List.cons_append, storeDays, htxt]
    · cases i with
      | zero =>
        have hfirst : ∀ i < txts.length, dateKey count ≠ dateKey (count + 1 + i) := by
          intro i _ he
          have := dateKey_inj.mp he
          omega
        rw [Nat.add_zero, hold _ hfirst, Function.update_self]
        rfl
      | succ i =>
        rw [List.getElem?_cons_succ, hkey]
        exact hnew i (Nat.lt_of_succ_lt_succ hi)
    · have hlater : ∀ i < txts.length, key ≠ dateKey (count + 1 + i) := by
        intro i hi
        rw [← hkey]
        exact hne (i + 1) (Nat.succ_lt_succ hi)
      rw [hold key hlater]
      exact Function.update_of_ne (hne 0 (Nat.succ_pos _)) _ _

/-- The script puts together the records that it finds. -/
theorem forecast_eq (h : ∀ i < records.length, weather (dateKey i) = records[i]?) :
    forecast weather records.length = some records.flatten := by
  have hprefix (k : Nat) (hk : k ≤ records.length) :
      (List.range k).foldlM (fun day i => (weather (dateKey i)).map fun txt => day ++ txt) [] =
        some (records.take k).flatten := by
    induction k with
    | zero => rfl
    | succ k ih =>
      obtain ⟨txt, hget⟩ : ∃ txt, records[k]? = some txt := ⟨_, List.getElem?_eq_getElem hk⟩
      have hfound : weather (dateKey k) = some txt := (h k hk).trans hget
      rw [List.range_succ, foldlM_concat, ih (by omega), List.take_add_one, hget]
      simp [hfound]
  rw [forecast, Int.toNat_natCast, hprefix records.length (Nat.le_refl _), List.take_length]

/-- Whatever earlier crawls left, behind `process_item` the mail has exactly the records of the
item, in order. -/
theorem showWeather_processItem {store : Store} {item : Item} (hcity : item.city ≠ [])
    (hupDate : item.upDate ≠ []) (hupTime : item.upTime ≠ [])
    (hslash : ∀ temps ∈ item.dayTemp, '/' ∈ temps) (hprint : ∀ d ∈ item.date, Printable d) :
    ∃ (weather : Store) (kept : Returned) (records : List Bytes),
      processItem store item = (weather, some kept) ∧
      records.length = item.days ∧
      (∀ i < item.days, ∃ txt, records[i]? = some txt ∧ item.Combines i txt) ∧
      ∀ user, showWeather weather user = ((user userCount).bind pyInt).map fun users =>
        Mail.mk (recipients user users) records.flatten := by
  obtain ⟨city, cities, hcity⟩ := List.exists_cons_of_ne_nil hcity
  obtain ⟨upDate, upDates, hupDate⟩ := List.exists_cons_of_ne_nil hupDate
  obtain ⟨upTime, upTimes, hupTime⟩ := List.exists_cons_of_ne_nil hupTime
  obtain ⟨records, hrecords, hlen, hcombines⟩ := item.exists_records hprint hslash
  obtain ⟨store', hrun, hnew, -⟩ := storeDays_append hrecords
    (Function.update (Function.update store cityKey (some (utf8 city))) uptimeKey
      (some (utf8 upDate ++ utf8 upTime))) 0 (.item item) []
  rw [Nat.zero_add, List.append_nil, storeDays] at hrun
  refine ⟨Function.update store' daysKey (some (digits records.length)),
    (item.rows.getLast?.map Returned.row).getD (.item item), records, ?_, hlen, hcombines,
    fun user => ?_⟩
  · simp only [processItem, hcity, hupDate, hupTime, hrun]
  · have hfound : ∀ i < records.length,
        Function.update store' daysKey (some (digits records.length)) (dateKey i) =
          records[i]? := fun i hi => by
      rw [Function.update_of_ne (dateKey_ne_daysKey i), ← hnew i hi, Nat.zero_add]
    rw [showWeather, Function.update_self, Option.bind_some, pyInt_digits, Option.bind_some,
      forecast_eq hfound, Option.map_eq_bind]
    rfl

/-- Two days of yesterday, of which today has one. -/
def yesterday : Store := Function.update (Function.update (Function.update (fun _ => none)
  (dateKey 0) (some (ascii "old"))) (dateKey 1) (some (ascii "older"))) daysKey (some (ascii "2"))

/-- One day. -/
def today : Item where
  city := [['x']]
  upDate := [['1']]
  upTime := [['2']]
  date := [['0', '5']]
  dayDesc := [['r'], ['s'], ['t']]
  dayTemp := [['9', '/', '1']]

/-- Behind today's crawl the mail has today's records. -/
theorem showWeather_processItem_today :
    ∃ (weather : Store) (kept : Returned) (records : List Bytes),
      processItem yesterday today = (weather, some kept) ∧ records.length = today.days ∧
      (∀ i < today.days, ∃ txt, records[i]? = some txt ∧ today.Combines i txt) ∧
      ∀ user, showWeather weather user = ((user userCount).bind pyInt).map fun users =>
        Mail.mk (recipients user users) records.flatten :=
  showWeather_processItem (List.cons_ne_nil _ _) (List.cons_ne_nil _ _) (List.cons_ne_nil _ _)
    (by simp [today]) (by simp [today, Printable])

end NetworkCode.Weather
