import NetworkCode.Core.Publication
import NetworkCode.Weather.Crawling

/-!
# Crawls beside the mail

Crawls, register processes and runs of `ShowWeather.py` work on the hashes `weather` and
`user` at the same time, in steps of one Redis command. A crawl writes `days` behind the
records that it counts, and no command takes a field away. So a run of the script finds a
record for each day that it has been told of, though not always those of one crawl.
-/

namespace NetworkCode.Weather

open StepResult Text Publication

/-! ## The commands of a crawl -/

/-- `HSET weather`: the field and its value. -/
abbrev Command := Bytes × Bytes

/-- The commands of the loop from the day `count` on, and the one behind it; an exception ends
them. -/
def dayCommands (count : Nat) : List Row → List Command
  | [] => [(daysKey, digits count)]
  | row :: rows =>
    match record row with
    | none => []
    | some txt => (dateKey count, txt) :: dayCommands (count + 1) rows

/-- The commands of `process_item`. -/
def Item.commands (item : Item) : List Command :=
  match item.city with
  | [] => []
  | city :: _ =>
    (cityKey, utf8 city) ::
      match item.upDate, item.upTime with
      | upDate :: _, upTime :: _ =>
        (uptimeKey, utf8 upDate ++ utf8 upTime) :: dayCommands 0 item.rows
      | _, _ => []

/-! ## A run of the script -/

/-- The exceptions of the script: a field that is no number, or a missing record. -/
inductive Exception where
  | noDays
  | noUsers
  | noRecord
  deriving DecidableEq, Repr

/-- Where a run of the script stands. -/
inductive Script where
  /-- Before it reads `days`. -/
  | starting
  /-- Before it reads `UserCount`. -/
  | counted (count : Int)
  /-- In the loop over the users. -/
  | listing (count users : Int) (toList : List Bytes)
  /-- In the loop over the days, before the day `i`. -/
  | gathering (count : Int) (toList : List Bytes) (i : Nat) (day : Bytes)
  /-- It calls `send_mail`. -/
  | sending (mail : Mail)
  /-- It has ended with an exception. -/
  | raised (e : Exception)
  deriving DecidableEq, Repr

/-- The next command of the script. -/
def Script.step (weather user : Store) : Script → StepResult Script
  | .starting =>
    match (weather daysKey).bind pyInt with
    | none => next (.raised .noDays)
    | some count => next (.counted count)
  | .counted count =>
    match (user userCount).bind pyInt with
    | none => next (.raised .noUsers)
    | some users => next (.listing count users [])
  | .listing count users toList =>
    if toList.length < users then
      next (.listing count users
        (toList ++ [replaceAt (pyStr (user (userKey toList.length)))]))
    else next (.gathering count toList 0 [])
  | .gathering count toList i day =>
    if i < count then
      match weather (dateKey i) with
      | none => next (.raised .noRecord)
      | some txt => next (.gathering count toList (i + 1) (day ++ txt))
    else next (.sending ⟨toList, day⟩)
  | .sending _ | .raised _ => disabled

/-! ## All of them -/

/-- The two hashes, the register processes, what the crawls have still to write, and the runs of
the script. -/
structure Bureau where
  weather : Store
  user : Store
  registers : List Register
  crawls : List (List Command)
  scripts : List Script

/-- Register processes with these e-mails, crawls of these items and this many runs of the script,
before they start. -/
def Bureau.start (weather user : Store) (emails : List Bytes) (items : List Item)
    (scripts : Nat) : Bureau where
  weather := weather
  user := user
  registers := emails.map .start
  crawls := items.map Item.commands
  scripts := List.replicate scripts .starting

/-- Who executes the next command. -/
inductive Turn where
  | register (i : Nat)
  | crawl (i : Nat)
  | script (i : Nat)
  deriving DecidableEq, Repr

/-- The next command is one of a script, which only reads. -/
def Turn.isScript : Turn → Bool
  | .script _ => true
  | _ => false

/-- One command. -/
def Bureau.step (s : Bureau) : Turn → StepResult Bureau
  | .register i =>
    match s.registers[i]? with
    | none => disabled
    | some p =>
      (p.step s.user).bind fun r =>
        next { s with user := r.1, registers := s.registers.set i r.2 }
  | .crawl i =>
    match s.crawls[i]? with
    | some (c :: cs) => next { s with weather := put s.weather c, crawls := s.crawls.set i cs }
    | _ => disabled
  | .script i =>
    match s.scripts[i]? with
    | none => disabled
    | some p => (p.step s.weather s.user).bind fun p => next { s with scripts := s.scripts.set i p }

/-! ## What the mail may have -/

/-- The text under the number of a day: it was there at the beginning, or it is the record that one
of the items has for this day. -/
def Recorded (weather : Store) (items : List Item) (i : Nat) (txt : Bytes) : Prop :=
  weather (dateKey i) = some txt ∨
    ∃ item ∈ items, ∃ row, item.rows[i]? = some row ∧ record row = some txt

/-- The text under `days`: it was there at the beginning, or it is the number of days of an item
that has all its records. -/
def Announced (weather : Store) (items : List Item) (days : Bytes) : Prop :=
  weather daysKey = some days ∨
    ∃ item ∈ items, days = digits item.days ∧ (item.rows.mapM record).isSome

/-- A mail that is put together from as many records as were announced. -/
def Mail.Gathered (weather : Store) (items : List Item) (mail : Mail) : Prop :=
  ∃ (days : Bytes) (count : Int) (records : List Bytes), Announced weather items days ∧
    pyInt days = some count ∧ records.length = count.toNat ∧ mail.content = records.flatten ∧
    ∀ i txt, records[i]? = some txt → Recorded weather items i txt

/-- The number of days needs the record of each. -/
def NeedsRecord (key v key' : Bytes) : Prop :=
  key = daysKey ∧ ∃ count, pyInt v = some count ∧ ∃ i < count.toNat, key' = dateKey i

/-- What is under the fields of the days and under their number. -/
def Sourced (weather : Store) (items : List Item) (key v : Bytes) : Prop :=
  (∀ i, key = dateKey i → Recorded weather items i v) ∧ (key = daysKey → Announced weather items v)

variable {weather user store : Store} {emails : List Bytes} {items : List Item} {item : Item}
  {rows : List Row} {row : Row} {kept : Returned} {count : Nat} {s t : Bureau} {p p' : Script}

/-! ## A crawl alone -/

/-- The commands behind the loop's beginning do what the loop and the command behind it do. -/
theorem foldl_dayCommands (store : Store) (count : Nat) (kept : Returned) (rows : List Row) :
    (dayCommands count rows).foldl put store =
      match storeDays store count kept rows with
      | (store, none) => store
      | (store, some (count, _)) => Function.update store daysKey (some (digits count)) := by
  induction rows generalizing store count kept with
  | nil => rfl
  | cons row rows ih =>
    cases htxt : record row with
    | none => simp only [dayCommands, storeDays, htxt, List.foldl_nil]
    | some txt =>
      simp only [dayCommands, storeDays, htxt, List.foldl_cons]
      exact ih _ (count + 1) (.row row)

/-- The commands one after the other leave the store that `process_item` leaves. -/
theorem foldl_commands (store : Store) (item : Item) :
    item.commands.foldl put store = (processItem store item).1 := by
  cases hcity : item.city with
  | nil => simp only [Item.commands, processItem, hcity, List.foldl_nil]
  | cons city cities =>
    cases hupDate : item.upDate with
    | nil => simp only [Item.commands, processItem, hcity, hupDate, List.foldl_cons,
        List.foldl_nil, put]
    | cons upDate upDates =>
      cases hupTime : item.upTime with
      | nil => simp only [Item.commands, processItem, hcity, hupDate, hupTime, List.foldl_cons,
          List.foldl_nil, put]
      | cons upTime upTimes =>
        simp only [Item.commands, processItem, hcity, hupDate, hupTime, List.foldl_cons]
        rw [foldl_dayCommands _ 0 (.item item)]
        simp only [put]
        cases storeDays _ 0 (.item item) item.rows with
        | mk store' r => cases r <;> rfl

/-! ## A crawl among others -/

/-- The loop writes the records in order, and their number last. -/
theorem ahead_dayCommands (hbefore : ∀ i < count, store (dateKey i) ≠ none) :
    Ahead NeedsRecord store (dayCommands count rows) := by
  induction rows generalizing store count with
  | nil =>
    refine ⟨?_, trivial⟩
    rintro key ⟨-, n, hn, i, hi, rfl⟩
    rw [pyInt_digits] at hn
    obtain rfl := Option.some.inj hn
    exact hbefore i hi
  | cons row rows ih =>
    cases htxt : record row with
    | none =>
      simp only [dayCommands, htxt]
      trivial
    | some txt =>
      simp only [dayCommands, htxt]
      refine ⟨fun key hneeds => absurd hneeds.1 (dateKey_ne_daysKey count), ih fun i hi => ?_⟩
      rcases Nat.lt_succ_iff_lt_or_eq.mp hi with hi | rfl
      · exact put_ne_none (hbefore i hi)
      · rw [put_self]
        exact Option.some_ne_none txt

/-- The two fields in front of the loop need nothing. -/
theorem ahead_commands (store : Store) (item : Item) : Ahead NeedsRecord store item.commands := by
  have hcity : cityKey ≠ daysKey := by decide
  have huptime : uptimeKey ≠ daysKey := by decide
  unfold Item.commands
  split
  · trivial
  · refine ⟨fun key hneeds => absurd hneeds.1 hcity, ?_⟩
    split
    · exact ⟨fun key hneeds => absurd hneeds.1 huptime,
        ahead_dayCommands fun i hi => absurd hi (Nat.not_lt_zero i)⟩
    · trivial

/-- What the loop writes: records under the numbers of their days, and how many there are. -/
theorem mem_dayCommands {c : Command} (h : c ∈ dayCommands count rows) :
    (∃ i row txt, rows[i]? = some row ∧ record row = some txt ∧ c = (dateKey (count + i), txt)) ∨
      c = (daysKey, digits (count + rows.length)) ∧ (rows.mapM record).isSome := by
  induction rows generalizing count with
  | nil => exact .inr ⟨List.mem_singleton.mp h, rfl⟩
  | cons row rows ih =>
    cases htxt : record row with
    | none =>
      simp only [dayCommands, htxt] at h
      cases h
    | some txt =>
      simp only [dayCommands, htxt, List.mem_cons] at h
      rcases h with rfl | h
      · exact .inl ⟨0, row, txt, rfl, htxt, rfl⟩
      · rcases ih h with ⟨i, row', txt', hrow, htxt', rfl⟩ | ⟨rfl, hall⟩
        · exact .inl ⟨i + 1, row', txt', hrow, htxt', by rw [Nat.add_right_comm, Nat.add_assoc]⟩
        · obtain ⟨records, hrecords⟩ := Option.isSome_iff_exists.mp hall
          refine .inr ⟨by rw [List.length_cons, Nat.add_right_comm, Nat.add_assoc], ?_⟩
          simp [List.mapM_cons, htxt, hrecords]

/-- A crawl writes its own records and their number. -/
theorem sourced_of_mem_commands (hitem : item ∈ items) :
    ∀ c ∈ item.commands, Sourced weather items c.1 c.2 := by
  have hloop : ∀ c ∈ dayCommands 0 item.rows, Sourced weather items c.1 c.2 := by
    intro c hc
    rcases mem_dayCommands hc with ⟨i, row, txt, hrow, htxt, rfl⟩ | ⟨rfl, hall⟩
    · refine ⟨fun j hj => ?_, fun hdays => absurd hdays (dateKey_ne_daysKey _)⟩
      obtain rfl : 0 + i = j := dateKey_inj.mp hj
      rw [Nat.zero_add]
      exact .inr ⟨item, hitem, row, hrow, htxt⟩
    · refine ⟨fun j hj => absurd hj.symm (dateKey_ne_daysKey j), fun _ => ?_⟩
      exact .inr ⟨item, hitem, by rw [Nat.zero_add, length_rows], hall⟩
  have hcity (v : Bytes) : Sourced weather items cityKey v :=
    ⟨fun i hi => absurd hi.symm (dateKey_ne_cityKey i), fun h => absurd h (by decide)⟩
  have huptime (v : Bytes) : Sourced weather items uptimeKey v :=
    ⟨fun i hi => absurd hi.symm (dateKey_ne_uptimeKey i), fun h => absurd h (by decide)⟩
  intro c hc
  unfold Item.commands at hc
  split at hc
  · cases hc
  · rcases List.mem_cons.mp hc with rfl | hc
    · exact hcity _
    · split at hc
      · rcases List.mem_cons.mp hc with rfl | hc
        · exact huptime _
        · exact hloop c hc
      · cases hc

/-! ## The script among the crawls -/

/-- The days that the script has been told of have records. -/
structure Told (weather : Store) (items : List Item) (store : Store) (count : Int) : Prop where
  announced : ∃ days, Announced weather items days ∧ pyInt days = some count
  present : ∀ i < count.toNat, store (dateKey i) ≠ none

/-- What a run of the script has read so far. -/
def Informed (weather : Store) (items : List Item) (store : Store) : Script → Prop
  | .starting => True
  | .counted count | .listing count _ _ => Told weather items store count
  | .gathering count _ i day => Told weather items store count ∧ i ≤ count.toNat ∧
      ∃ records : List Bytes, records.length = i ∧ day = records.flatten ∧
        ∀ j txt, records[j]? = some txt → Recorded weather items j txt
  | .sending mail => mail.Gathered weather items
  | .raised e => e ≠ .noRecord

/-- Another field that is written leaves the script informed. -/
theorem Informed.put {c : Command} (h : Informed weather items store p) :
    Informed weather items (put store c) p := by
  have htold {count : Int} (h : Told weather items store count) :
      Told weather items (Publication.put store c) count :=
    ⟨h.announced, fun i hi => put_ne_none (h.present i hi)⟩
  cases p with
  | starting => trivial
  | counted count => exact htold h
  | listing count users toList => exact htold h
  | gathering count toList i day => exact ⟨htold h.1, h.2⟩
  | sending mail => exact h
  | raised e => exact h

/-- What holds in every state: the writers keep to their order, and the script has read what they
wrote. -/
structure Publishing (weather : Store) (items : List Item) (s : Bureau) : Prop where
  kept : Kept NeedsRecord s.weather s.crawls
  sourced : From (Sourced weather items) s.weather s.crawls
  informed : ∀ p ∈ s.scripts, Informed weather items s.weather p

/-- The next command of the script finds what it needs. -/
theorem Informed.step (hclosed : Closed NeedsRecord store)
    (hsourced : ∀ key v, store key = some v → Sourced weather items key v)
    (h : Informed weather items store p) (hs : p.step store user = next p') :
    Informed weather items store p' := by
  cases p with
  | starting =>
    simp only [Script.step] at hs
    split at hs
    · cases hs
      exact fun he => by cases he
    · rename_i count hcount
      cases hs
      obtain ⟨days, hdays, hint⟩ := Option.bind_eq_some_iff.mp hcount
      exact ⟨⟨days, (hsourced _ _ hdays).2 rfl, hint⟩, fun i hi =>
        hclosed _ _ hdays _ ⟨rfl, count, hint, i, hi, rfl⟩⟩
  | counted count =>
    simp only [Script.step] at hs
    split at hs
    · cases hs
      exact fun he => by cases he
    · cases hs
      exact h
  | listing count users toList =>
    simp only [Script.step] at hs
    split at hs
    · cases hs
      exact h
    · cases hs
      exact ⟨h, Nat.zero_le _, [], rfl, rfl, fun j txt hj => by cases hj⟩
  | gathering count toList i day =>
    obtain ⟨htold, hle, records, rfl, rfl, hrecords⟩ := h
    simp only [Script.step] at hs
    split at hs
    · rename_i hlt
      have hnext : records.length < count.toNat := by omega
      obtain ⟨txt, htxt⟩ := Option.ne_none_iff_exists'.mp (htold.present _ hnext)
      simp only [htxt] at hs
      cases hs
      refine ⟨htold, hnext, records ++ [txt], by simp, by simp, fun j txt' hj => ?_⟩
      rcases Nat.lt_or_ge j records.length with hlt | hge
      · rw [List.getElem?_append_left hlt] at hj
        exact hrecords j txt' hj
      · rw [List.getElem?_append_right hge, List.getElem?_singleton] at hj
        split at hj
        · obtain rfl : txt = txt' := Option.some.inj hj
          obtain rfl : j = records.length := by omega
          exact (hsourced _ _ htxt).1 _ rfl
        · cases hj
    · cases hs
      obtain ⟨days, hannounced, hint⟩ := htold.announced
      exact ⟨days, count, records, hannounced, hint, by omega, rfl, hrecords⟩
  | sending mail => cases hs
  | raised e => cases hs

/-- At the start the crawls have all of their commands before them. -/
theorem publishing_start {scripts : Nat} (hclosed : Closed NeedsRecord weather) :
    Publishing weather items (.start weather user emails items scripts) where
  kept := by
    refine ⟨hclosed, fun cs hcs => ?_⟩
    obtain ⟨item, -, rfl⟩ := List.mem_map.mp hcs
    exact ahead_commands weather item
  sourced := by
    refine ⟨fun key v hv => ⟨fun i hi => .inl (hi ▸ hv), fun hdays => .inl (hdays ▸ hv)⟩,
      fun cs hcs => ?_⟩
    obtain ⟨item, hitem, rfl⟩ := List.mem_map.mp hcs
    exact sourced_of_mem_commands hitem
  informed p hp := by
    obtain rfl : p = .starting := List.eq_of_mem_replicate hp
    trivial

/-- A command keeps the writers in their order and the scripts informed. -/
theorem Publishing.step {a : Turn} (h : Publishing weather items s) (hs : s.step a = next t) :
    Publishing weather items t := by
  cases a with
  | register i =>
    simp only [Bureau.step] at hs
    split at hs
    · cases hs
    · obtain ⟨r, -, hnext⟩ := bind_eq_next.mp hs
      cases hnext
      exact ⟨h.kept, h.sourced, h.informed⟩
  | crawl i =>
    simp only [Bureau.step] at hs
    split at hs
    · rename_i c cs hi
      cases hs
      exact ⟨h.kept.step hi, h.sourced.step hi, fun p hp => (h.informed p hp).put⟩
    · cases hs
  | script i =>
    simp only [Bureau.step] at hs
    split at hs
    · cases hs
    · rename_i p hp
      obtain ⟨p', hp', hnext⟩ := bind_eq_next.mp hs
      cases hnext
      refine ⟨h.kept, h.sourced, fun q hq => ?_⟩
      rcases List.mem_or_eq_of_mem_set hq with hq | rfl
      · exact h.informed q hq
      · exact (h.informed p (List.mem_of_getElem? hp)).step h.kept.closed h.sourced.stored hp'

/-- In whatever order crawls, registrations and scripts alternate, no script misses a record, and
each mail has as many records as were announced, each written for its day. -/
theorem mail_gathered {scripts : Nat} (hclosed : Closed NeedsRecord weather)
    (h : Reaches Bureau.step (fun _ _ => True) (.start weather user emails items scripts) s) :
    Script.raised .noRecord ∉ s.scripts ∧
      ∀ mail, Script.sending mail ∈ s.scripts → mail.Gathered weather items := by
  have hpublishing : Publishing weather items s :=
    h.invariant (publishing_start hclosed) fun _ _ _ ih _ hs => ih.step hs
  exact ⟨fun hraised => hpublishing.informed _ hraised rfl,
    fun mail hmail => hpublishing.informed _ hmail⟩

/-- The forecast of yesterday counts the two days that it has. -/
theorem closed_yesterday : Closed NeedsRecord yesterday := by
  rintro key v hv key' ⟨rfl, count, hcount, i, hi, rfl⟩
  rw [yesterday, Function.update_self] at hv
  obtain rfl := Option.some.inj hv
  obtain rfl : (2 : Int) = count := Option.some.inj hcount
  have hcases : i = 0 ∨ i = 1 := by
    have htwo : i < 2 := hi
    omega
  rcases hcases with rfl | rfl <;> decide +kernel

/-- A script reads the number of days of yesterday, and its loop goes on while today's first day is
written. -/
def readAcross : List Turn :=
  [.script 0, .script 0, .crawl 0, .crawl 0, .script 0, .crawl 0, .script 0, .script 0, .script 0]

theorem readAcross_scripts :
    (runGuarded Bureau.step (fun _ _ => True) (.start yesterday (fun _ => some (ascii "0")) []
      [today, torn] 1) readAcross).state?.map Bureau.scripts =
        some [.sending ⟨[], ascii "date:05\t\tday:s(9)\t\tnight:r(1)\n\nolder"⟩] := by
  decide +kernel

/-- A mail with a record of today behind which there is one of yesterday. -/
theorem mail_gathered_readAcross : ∃ s, Reaches Bureau.step (fun _ _ => True)
      (.start yesterday (fun _ => some (ascii "0")) [] [today, torn] 1) s ∧
    s.scripts = [.sending ⟨[], ascii "date:05\t\tday:s(9)\t\tnight:r(1)\n\nolder"⟩] ∧
    Script.raised .noRecord ∉ s.scripts ∧
      ∀ mail, Script.sending mail ∈ s.scripts → mail.Gathered yesterday [today, torn] := by
  obtain ⟨s, hs, hscripts⟩ := exists_next_of_map readAcross_scripts
  have hreach := Reaches.of_runGuarded _ _ hs
  exact ⟨s, hreach, hscripts, mail_gathered closed_yesterday hreach⟩

/-! ## The script between two crawls -/

/-- The loop over the users from where it stands. -/
def recipientsFrom (user : Store) (users : Int) (toList : List Bytes) : List Bytes :=
  toList ++ (List.range' toList.length (users.toNat - toList.length)).map fun i =>
    replaceAt (pyStr (user (userKey i)))

/-- The loop over the days from where it stands. -/
def forecastFrom (weather : Store) (count : Int) (i : Nat) (day : Bytes) : Option Bytes :=
  (List.range' i (count.toNat - i)).foldlM
    (fun day i => (weather (dateKey i)).map fun txt => day ++ txt) day

/-- What the script comes to when nothing is written any more. -/
def Script.outcome (weather user : Store) : Script → Option Mail
  | .starting => showWeather weather user
  | .counted count =>
    ((user userCount).bind pyInt).bind fun users =>
      (forecast weather count).map fun day => ⟨recipients user users, day⟩
  | .listing count users toList =>
    (forecast weather count).map fun day => ⟨recipientsFrom user users toList, day⟩
  | .gathering count toList i day =>
    (forecastFrom weather count i day).map fun day => ⟨toList, day⟩
  | .sending mail => some mail
  | .raised _ => none

/-- Before its first turn the loop has all users before it. -/
theorem recipientsFrom_nil (users : Int) :
    recipientsFrom user users [] = recipients user users := by
  rw [recipientsFrom, List.length_nil, Nat.sub_zero, List.nil_append, ← List.range_eq_range',
    recipients]

/-- A turn of the loop over the users. -/
theorem recipientsFrom_of_lt {users : Int} {toList : List Bytes} (h : toList.length < users) :
    recipientsFrom user users (toList ++ [replaceAt (pyStr (user (userKey toList.length)))]) =
      recipientsFrom user users toList := by
  obtain ⟨k, hk⟩ : ∃ k, users.toNat - toList.length = k + 1 := ⟨_, (Nat.succ_pred (by omega)).symm⟩
  have hk' : users.toNat - (toList.length + 1) = k := by omega
  simp only [recipientsFrom, List.length_append, List.length_singleton, hk, hk',
    List.range'_succ, List.map_cons, List.append_assoc, List.singleton_append]

/-- The end of the loop over the users. -/
theorem recipientsFrom_of_not_lt {users : Int} {toList : List Bytes}
    (h : ¬ toList.length < users) : recipientsFrom user users toList = toList := by
  have hend : users.toNat - toList.length = 0 := by omega
  rw [recipientsFrom, hend, List.range'_zero, List.map_nil, List.append_nil]

/-- Before its first turn the loop has all days before it. -/
theorem forecastFrom_zero (count : Int) :
    forecastFrom weather count 0 [] = forecast weather count := by
  rw [forecastFrom, Nat.sub_zero, ← List.range_eq_range', forecast]

/-- A turn of the loop over the days. -/
theorem forecastFrom_of_lt {count : Int} {i : Nat} (h : i < count) (day : Bytes) :
    forecastFrom weather count i day =
      (weather (dateKey i)).bind fun txt => forecastFrom weather count (i + 1) (day ++ txt) := by
  obtain ⟨k, hk⟩ : ∃ k, count.toNat - i = k + 1 := ⟨_, (Nat.succ_pred (by omega)).symm⟩
  have hk' : count.toNat - (i + 1) = k := by omega
  simp only [forecastFrom, hk, hk', List.range'_succ, List.foldlM_cons]
  cases weather (dateKey i) <;> rfl

/-- The end of the loop over the days. -/
theorem forecastFrom_of_not_lt {count : Int} {i : Nat} (h : ¬ i < count) (day : Bytes) :
    forecastFrom weather count i day = some day := by
  have hend : count.toNat - i = 0 := by omega
  rw [forecastFrom, hend, List.range'_zero, List.foldlM_nil]
  rfl

/-- A command of the script leaves open only what it comes to anyway. -/
theorem Script.outcome_step (hs : p.step weather user = next p') :
    p'.outcome weather user = p.outcome weather user := by
  cases p with
  | starting =>
    simp only [Script.step] at hs
    split at hs
    · rename_i hnone
      cases hs
      simp only [outcome, showWeather, hnone, Option.bind_none]
    · rename_i count hcount
      cases hs
      simp only [outcome, showWeather, hcount, Option.bind_some]
  | counted count =>
    simp only [Script.step] at hs
    split at hs
    · rename_i hnone
      cases hs
      simp only [outcome, hnone, Option.bind_none]
    · rename_i users husers
      cases hs
      simp only [outcome, husers, Option.bind_some, recipientsFrom_nil]
  | listing count users toList =>
    simp only [Script.step] at hs
    split at hs
    · rename_i hlt
      cases hs
      simp only [outcome, recipientsFrom_of_lt hlt]
    · rename_i hge
      cases hs
      simp only [outcome, recipientsFrom_of_not_lt hge, forecastFrom_zero]
  | gathering count toList i day =>
    simp only [Script.step] at hs
    split at hs
    · rename_i hlt
      simp only [outcome, forecastFrom_of_lt hlt]
      split at hs
      · rename_i hnone
        cases hs
        simp only [hnone, Option.bind_none, Option.map_none]
      · rename_i txt htxt
        cases hs
        simp only [htxt, Option.bind_some]
    · rename_i hge
      cases hs
      simp only [outcome, forecastFrom_of_not_lt hge, Option.map_some]
  | sending mail => cases hs
  | raised e => cases hs

/-- While only scripts run the hashes stay, and each script what it comes to. -/
theorem outcome_of_reaches {i : Nat} (h : Reaches Bureau.step (fun _ a => a.isScript) s t)
    (hp : s.scripts[i]? = some p) : t.weather = s.weather ∧ t.user = s.user ∧
      ∃ p', t.scripts[i]? = some p' ∧ p'.outcome s.weather s.user = p.outcome s.weather s.user := by
  induction h with
  | refl => exact ⟨rfl, rfl, p, hp, rfl⟩
  | tail _ hok hs ih =>
    obtain ⟨hweather, huser, p', hp', houtcome⟩ := ih
    rename_i a _
    cases a with
    | register j => cases hok
    | crawl j => cases hok
    | script j =>
      simp only [Bureau.step] at hs
      split at hs
      · cases hs
      · rename_i q hq
        obtain ⟨q', hq', hnext⟩ := bind_eq_next.mp hs
        cases hnext
        refine ⟨hweather, huser, ?_⟩
        by_cases he : j = i
        · subst he
          obtain rfl : q = p' := Option.some.inj (hq.symm.trans hp')
          rw [hweather, huser] at hq'
          exact ⟨q', by rw [List.getElem?_set_self (List.getElem?_eq_some_iff.mp hq).1],
            (Script.outcome_step hq').trans houtcome⟩
        · exact ⟨p', by rw [List.getElem?_set_ne he, hp'], houtcome⟩

/-- While nothing is written, a script that starts sends the mail of the two hashes as they are, and
raises where there is none. -/
theorem showWeather_of_reaches {i : Nat}
    (h : Reaches Bureau.step (fun _ a => a.isScript) s t)
    (hstart : s.scripts[i]? = some .starting) (hend : t.scripts[i]? = some p) :
    (∀ mail, p = .sending mail → showWeather s.weather s.user = some mail) ∧
      ∀ e, p = .raised e → showWeather s.weather s.user = none := by
  obtain ⟨-, -, p', hp', houtcome⟩ := outcome_of_reaches h hstart
  obtain rfl : p = p' := Option.some.inj (hend.symm.trans hp')
  refine ⟨fun mail hmail => ?_, fun e he => ?_⟩
  · rw [hmail] at houtcome
    exact houtcome.symm
  · rw [he] at houtcome
    exact houtcome.symm

/-- A script that is left alone. -/
def readThrough : List Turn := List.replicate 6 (.script 0)

theorem readThrough_scripts :
    (runGuarded Bureau.step (fun _ a => a.isScript) (.start yesterday (fun _ => some (ascii "0"))
      [] [today] 1) readThrough).state?.map Bureau.scripts =
        some [.sending ⟨[], ascii "oldolder"⟩] := by
  decide +kernel

/-- A script that is left alone sends the forecast of yesterday. -/
theorem showWeather_of_reaches_readThrough : ∃ s p, Reaches Bureau.step (fun _ a => a.isScript)
      (.start yesterday (fun _ => some (ascii "0")) [] [today] 1) s ∧ s.scripts[0]? = some p ∧
    p = .sending ⟨[], ascii "oldolder"⟩ ∧
    (∀ mail, p = .sending mail →
      showWeather yesterday (fun _ => some (ascii "0")) = some mail) ∧
    ∀ e, p = .raised e → showWeather yesterday (fun _ => some (ascii "0")) = none := by
  obtain ⟨s, hs, hscripts⟩ := exists_next_of_map readThrough_scripts
  have hreach := Reaches.of_runGuarded _ _ hs
  have hend : s.scripts[0]? = some (.sending ⟨[], ascii "oldolder"⟩) := by rw [hscripts]; rfl
  exact ⟨s, _, hreach, hend, rfl, showWeather_of_reaches hreach rfl hend⟩

end NetworkCode.Weather
