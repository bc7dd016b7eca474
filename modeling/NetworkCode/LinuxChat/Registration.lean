import NetworkCode.Core.Lists
import NetworkCode.LinuxChat.Server
import Mathlib.Data.List.Induction

/-!
# Who is registered

A user list is keyed by IP address alone. It has one endpoint for an address, the first one
heard of since the last QUIT of that address. It is the set of the endpoints that are there
exactly when no two of them share an address and none of them is behind another one's QUIT.
-/

namespace NetworkCode.LinuxChat

open Text

variable {parse : Bytes → Json}

/-! ## A sequence of datagrams -/

/-- `userlist` behind a call of `RecvData`, unless the call does not come back. -/
def Receipt.users (before : UserList) : Receipt → Option UserList
  | .failed => some before
  | .overflow | .raised => none
  | .received _ users => some users

/-- `userlist` behind calls of `RecvData` on these datagrams. -/
def receiveAll (parse : Bytes → Json) (arrivals : List (Endpoint × Bytes)) : Option UserList :=
  arrivals.foldlM (fun users a => (recvData parse users a.1 a.2).users users) .empty

/-- The last of these datagrams that satisfies a condition. -/
def latest (p : Endpoint × Bytes → Bool) (arrivals : List (Endpoint × Bytes)) : Option Bytes :=
  (arrivals.reverse.find? p).map Prod.snd

/-- `RecvData` can read the command of this datagram. -/
def Readable (parse : Bytes → Json) (datagram : Bytes) : Prop :=
  datagram.length < recvSize ∧
    (datagram ≠ [] → ∃ cmd, (parse (cstr datagram)).field (ascii "cmd") = some cmd)

/-- A QUIT. -/
def IsQuit (parse : Bytes → Json) (datagram : Bytes) : Prop :=
  datagram ≠ [] ∧ (parse (cstr datagram)).field (ascii "cmd") = some (ascii "QUIT")

/-- The latest datagram of this endpoint is not a QUIT. -/
def Active (parse : Bytes → Json) (arrivals : List (Endpoint × Bytes)) (e : Endpoint) : Prop :=
  ∃ d, latest (fun a => a.1 = e) arrivals = some d ∧ ¬ IsQuit parse d

/-- The latest datagram of this address that is not empty is not a QUIT. -/
def Present (parse : Bytes → Json) (arrivals : List (Endpoint × Bytes)) (ip : Addr) : Prop :=
  ∃ d, latest (fun a => a.1.addr = ip ∧ a.2 ≠ []) arrivals = some d ∧ ¬ IsQuit parse d

/-- The server will send to the endpoints whose latest datagram is not a QUIT. -/
def Registers (parse : Bytes → Json) (arrivals : List (Endpoint × Bytes)) : Prop :=
  ∃ users, receiveAll parse arrivals = some users ∧
    ∀ e, e ∈ users.values ↔ Active parse arrivals e

/-! ## One more datagram -/

variable {arrivals : List (Endpoint × Bytes)} {a : Endpoint × Bytes} {users : UserList}

/-- The latest datagram of a kind behind one more. -/
theorem latest_concat (p : Endpoint × Bytes → Bool) :
    latest p (arrivals ++ [a]) = if p a then some a.2 else latest p arrivals := by
  rw [latest, List.reverse_concat, List.find?_cons]
  split <;> simp_all [latest]

/-- One more datagram. -/
theorem receiveAll_concat :
    receiveAll parse (arrivals ++ [a]) =
      (receiveAll parse arrivals).bind fun users =>
        (recvData parse users a.1 a.2).users users :=
  foldlM_concat _ _ _ _

/-- What a call of `RecvData` makes of `userlist`. -/
theorem users_recvData {users' : UserList} {remote : Endpoint} {datagram : Bytes} :
    (recvData parse users remote datagram).users users = some users' ↔
      Readable parse datagram ∧
        ((datagram = [] ∧ users' = users) ∨
          (IsQuit parse datagram ∧ users' = users.erase remote.addr) ∨
          (datagram ≠ [] ∧ ¬ IsQuit parse datagram ∧
            users' = users.insert remote.addr remote)) := by
  by_cases hnil : datagram = []
  · subst hnil
    simp [recvData_nil, Receipt.users, Readable, IsQuit, recvSize, eq_comm]
  · by_cases hlen : datagram.length < recvSize
    · rw [recvData_of_lt hnil hlen]
      cases hfield : (parse (cstr datagram)).field (ascii "cmd") with
      | none => simp [hnil, hfield, Receipt.users, Readable]
      | some cmd =>
        by_cases hquit : cmd = ascii "QUIT"
        · simp [hnil, hlen, hfield, hquit, Receipt.users, register, Readable, IsQuit, eq_comm]
        · simp [hnil, hlen, hfield, hquit, Receipt.users, register, Readable, IsQuit, eq_comm]
    · rw [recvData_of_recvSize_le (Nat.not_lt.mp hlen)]
      simp [Receipt.users, Readable, hlen]

/-! ## The law of the user list -/

/-- What `userlist` has for each address behind these datagrams. -/
structure Heard (parse : Bytes → Json) (arrivals : List (Endpoint × Bytes)) (users : UserList) :
    Prop where
  registered : ∀ ip e, users.find ip = some e → e.addr = ip ∧ Active parse arrivals e
  present : ∀ ip, Present parse arrivals ip ↔ users.find ip ≠ none

/-- Nobody is registered before the first datagram. -/
theorem heard_nil : Heard parse [] .empty where
  registered ip e h := by cases h
  present ip := by simp [Present, latest]

/-- Who is active behind one more datagram. -/
theorem active_concat {e : Endpoint} :
    Active parse (arrivals ++ [a]) e ↔
      if a.1 = e then ¬ IsQuit parse a.2 else Active parse arrivals e := by
  simp only [Active, latest_concat, decide_eq_true_eq]
  split <;> simp

/-- Who is present behind one more datagram. -/
theorem present_concat {ip : Addr} :
    Present parse (arrivals ++ [a]) ip ↔
      if a.1.addr = ip ∧ a.2 ≠ [] then ¬ IsQuit parse a.2 else Present parse arrivals ip := by
  simp only [Present, latest_concat, decide_eq_true_eq]
  split <;> simp

/-- An empty datagram changes nothing. -/
theorem Heard.concat_nil (h : Heard parse arrivals users) (hnil : a.2 = []) :
    Heard parse (arrivals ++ [a]) users where
  registered ip e he := by
    obtain ⟨haddr, hactive⟩ := h.registered ip e he
    refine ⟨haddr, active_concat.mpr ?_⟩
    split
    · exact fun hquit => hquit.1 hnil
    · exact hactive
  present ip := by
    rw [present_concat, if_neg fun hc => hc.2 hnil]
    exact h.present ip

/-- A QUIT erases whoever is registered for its address. -/
theorem Heard.concat_quit (h : Heard parse arrivals users) (hquit : IsQuit parse a.2) :
    Heard parse (arrivals ++ [a]) (users.erase a.1.addr) where
  registered ip e he := by
    rw [OrderedMap.find_erase] at he
    split at he
    · cases he
    · rename_i hip
      obtain ⟨haddr, hactive⟩ := h.registered ip e he
      have hne : a.1 ≠ e := fun hae => hip (by rw [hae, haddr])
      exact ⟨haddr, active_concat.mpr (by rwa [if_neg hne])⟩
  present ip := by
    rw [present_concat, OrderedMap.find_erase]
    by_cases hip : ip = a.1.addr
    · simp [hip, hquit, hquit.1]
    · simp [hip, Ne.symm hip, h.present ip]

/-- Another message registers its sender, unless somebody is registered for its address. -/
theorem Heard.concat_message (h : Heard parse arrivals users) (hnil : a.2 ≠ [])
    (hquit : ¬ IsQuit parse a.2) :
    Heard parse (arrivals ++ [a]) (users.insert a.1.addr a.1) where
  registered ip e he := by
    rw [OrderedMap.find_insert] at he
    split at he
    · rename_i hip
      subst hip
      cases hfind : users.find a.1.addr with
      | none =>
        rw [hfind] at he
        obtain rfl : a.1 = e := Option.some.inj he
        exact ⟨rfl, active_concat.mpr (by rwa [if_pos rfl])⟩
      | some e' =>
        rw [hfind] at he
        obtain rfl : e' = e := Option.some.inj he
        obtain ⟨haddr, hactive⟩ := h.registered _ _ hfind
        refine ⟨haddr, active_concat.mpr ?_⟩
        split
        · exact hquit
        · exact hactive
    · obtain ⟨haddr, hactive⟩ := h.registered ip e he
      refine ⟨haddr, active_concat.mpr ?_⟩
      split
      · exact hquit
      · exact hactive
  present ip := by
    rw [present_concat, OrderedMap.find_insert]
    by_cases hip : ip = a.1.addr
    · simp [hip, hquit, hnil]
    · simp [hip, Ne.symm hip, h.present ip]

/-- One more datagram that can be read registers its sender, or takes the one out who quits. -/
theorem Heard.recvData {users' : UserList} (h : Heard parse arrivals users)
    (hrecv : (recvData parse users a.1 a.2).users users = some users') :
    Readable parse a.2 ∧ Heard parse (arrivals ++ [a]) users' := by
  obtain ⟨hreadable, hcases⟩ := users_recvData.mp hrecv
  refine ⟨hreadable, ?_⟩
  rcases hcases with ⟨hnil, rfl⟩ | ⟨hquit, rfl⟩ | ⟨hnil, hquit, rfl⟩
  · exact h.concat_nil hnil
  · exact h.concat_quit hquit
  · exact h.concat_message hnil hquit

/-- Behind datagrams that can all be read, `userlist` is as `Heard` says. -/
theorem receiveAll_eq_some (h : receiveAll parse arrivals = some users) :
    (∀ a ∈ arrivals, Readable parse a.2) ∧ Heard parse arrivals users := by
  induction arrivals using List.reverseRecOn generalizing users with
  | nil =>
    obtain rfl : OrderedMap.empty = users := Option.some.inj h
    exact ⟨by simp, heard_nil⟩
  | append_singleton arrivals a ih =>
    rw [receiveAll_concat] at h
    obtain ⟨before, hbefore, hrecv⟩ := Option.bind_eq_some_iff.mp h
    obtain ⟨hall, hheard⟩ := ih hbefore
    obtain ⟨hreadable, hheard'⟩ := hheard.recvData hrecv
    refine ⟨fun a' ha' => ?_, hheard'⟩
    rcases List.mem_append.mp ha' with ha' | ha'
    · exact hall a' ha'
    · rwa [List.mem_singleton.mp ha']

/-- Datagrams that can be read are received. -/
theorem exists_receiveAll (h : ∀ a ∈ arrivals, Readable parse a.2) :
    ∃ users, receiveAll parse arrivals = some users := by
  induction arrivals using List.reverseRecOn with
  | nil => exact ⟨.empty, rfl⟩
  | append_singleton arrivals a ih =>
    obtain ⟨users, husers⟩ := ih fun a' ha' => h a' (List.mem_append_left _ ha')
    have hreadable := h a (by simp)
    rw [receiveAll_concat, husers, Option.bind_some]
    by_cases hnil : a.2 = []
    · exact ⟨_, users_recvData.mpr ⟨hreadable, .inl ⟨hnil, rfl⟩⟩⟩
    · by_cases hquit : IsQuit parse a.2
      · exact ⟨_, users_recvData.mpr ⟨hreadable, .inr (.inl ⟨hquit, rfl⟩)⟩⟩
      · exact ⟨_, users_recvData.mpr ⟨hreadable, .inr (.inr ⟨hnil, hquit, rfl⟩)⟩⟩

/-! ## When it is right -/

/-- The set of users is right exactly when the server survives the datagrams, no two active
endpoints share an address and no active endpoint is behind the QUIT of another one. -/
theorem registers_iff {arrivals : List (Endpoint × Bytes)} :
    Registers parse arrivals ↔
      (∀ a ∈ arrivals, Readable parse a.2) ∧
        (∀ e e', Active parse arrivals e → Active parse arrivals e' → e.addr = e'.addr → e = e') ∧
        ∀ e, Active parse arrivals e → Present parse arrivals e.addr := by
  constructor
  · rintro ⟨users, husers, hiff⟩
    obtain ⟨hall, hheard⟩ := receiveAll_eq_some husers
    have hfind (e : Endpoint) (he : Active parse arrivals e) : users.find e.addr = some e := by
      obtain ⟨ip, hip⟩ := OrderedMap.mem_values.mp ((hiff e).mpr he)
      obtain rfl := (hheard.registered ip e hip).1
      exact hip
    refine ⟨hall, fun e e' he he' haddr => ?_, fun e he => ?_⟩
    · have hsame := hfind e' he'
      rw [← haddr, hfind e he] at hsame
      exact Option.some.inj hsame
    · rw [hheard.present, hfind e he]
      exact Option.some_ne_none e
  · rintro ⟨hall, hone, hpresent⟩
    obtain ⟨users, husers⟩ := exists_receiveAll hall
    obtain ⟨-, hheard⟩ := receiveAll_eq_some husers
    refine ⟨users, husers, fun e => ⟨fun he => ?_, fun he => ?_⟩⟩
    · obtain ⟨ip, hip⟩ := OrderedMap.mem_values.mp he
      exact (hheard.registered ip e hip).2
    · obtain ⟨e', he'⟩ := Option.ne_none_iff_exists'.mp ((hheard.present _).mp (hpresent e he))
      obtain ⟨haddr, hactive⟩ := hheard.registered _ _ he'
      obtain rfl := hone e' e hactive he haddr
      exact OrderedMap.mem_values.mpr ⟨_, he'⟩

/-- An active endpoint that is not registered. -/
theorem not_registers_of_notMem {values : List Endpoint} {e : Endpoint}
    (hvalues : (receiveAll parse arrivals).map OrderedMap.values = some values)
    (hactive : Active parse arrivals e) (he : e ∉ values) : ¬ Registers parse arrivals := by
  rintro ⟨users, husers, hiff⟩
  rw [husers, Option.map_some, Option.some.injEq] at hvalues
  exact he (hvalues ▸ (hiff e).mpr hactive)

/-- The datagram of a client that leaves. -/
def quitText : Bytes := ascii "\x7b\"cmd\":\"QUIT\"\x7d"

/-- `Reader::parse` on the text of a QUIT and on texts that are no JSON. -/
def parseQuit (text : Bytes) : Json :=
  if text = quitText then .object [(ascii "cmd", .string (ascii "QUIT"))] else .null

theorem not_isQuit_ascii : ¬ IsQuit parseQuit (ascii "a") ∧ ¬ IsQuit parseQuit (ascii "b") :=
  ⟨fun h => absurd h.2 (by decide), fun h => absurd h.2 (by decide)⟩

/-- Of two clients behind one address only the first is registered, and the QUIT of one
unregisters the other. -/
theorem not_registers_sharedAddress :
    ¬ Registers parseQuit [(⟨1, 5000⟩, ascii "a"), (⟨1, 5001⟩, ascii "b")] ∧
      ¬ Registers parseQuit [(⟨1, 5000⟩, ascii "a"), (⟨1, 5001⟩, quitText)] := by
  constructor
  · have hactive : Active parseQuit [(⟨1, 5000⟩, ascii "a"), (⟨1, 5001⟩, ascii "b")] ⟨1, 5001⟩ :=
      ⟨ascii "b", by decide, not_isQuit_ascii.2⟩
    have hvalues :
        (receiveAll parseQuit [(⟨1, 5000⟩, ascii "a"), (⟨1, 5001⟩, ascii "b")]).map
          OrderedMap.values = some [⟨1, 5000⟩] := by
      decide +kernel
    exact not_registers_of_notMem hvalues hactive (by decide)
  · have hactive : Active parseQuit [(⟨1, 5000⟩, ascii "a"), (⟨1, 5001⟩, quitText)] ⟨1, 5000⟩ :=
      ⟨ascii "a", by decide, not_isQuit_ascii.1⟩
    have hvalues :
        (receiveAll parseQuit [(⟨1, 5000⟩, ascii "a"), (⟨1, 5001⟩, quitText)]).map
          OrderedMap.values = some [] := by
      decide +kernel
    exact not_registers_of_notMem hvalues hactive (by decide)

end NetworkCode.LinuxChat
