import Afs.ControlPlane.Login

/-!
# What a CLI login can issue

The transactions of any number of servers, one after the other in any order. Every request in the
table goes back to the call that started it, and what happened to it since is in the history: an
approved one was approved with its own code, and nobody was given a key for one that is not consumed.
-/

namespace Afs.ControlPlane.Login

open List Option

/-! ## Calls -/

/-- A call of the store. -/
inductive Call
  | start (name challenge random : Bytes) (now : Time)
  | decide (id code : Bytes) (decision : Decision) (identity : Identity) (bootstrapHash : Bytes)
      (now : Time)
  | exchange (deviceCode verifier bootstrapHash random : Bytes) (now : Time)
  | create (name : Bytes) (createdAt : Time) (expiresAt : Option Time) (id secret : Bytes)
  | authenticate (token : Bytes) (now : Time)
  | revoke (id : Bytes) (now : Time)
  /-- A transaction that fails at some point and is rolled back. -/
  | fail
  deriving DecidableEq, Repr

/-- What the store answers. -/
inductive Reply
  | started (r : CLILoginStart)
  | decided (d : Decided)
  | polled (p : CLILoginPoll)
  | authenticated (k : Option APIKey)
  | done
  | failed
  deriving DecidableEq, Repr

/-- A call and its answer. -/
structure Event where
  call : Call
  reply : Reply
  deriving DecidableEq, Repr

variable {e : Event} {hash random : Bytes} {now : Time} {s' : MetadataStore}

section Runs

variable (sha256 : Bytes → Bytes)

/-- One call. -/
def exec (s : MetadataStore) : Call → Reply × MetadataStore
  | .start name challenge random now =>
    match startCLILogin sha256 s name challenge random now with
    | .ok (r, s') => (.started r, s')
    | .error _ => (.failed, s)
  | .decide id code decision identity bootstrapHash now =>
    let (d, s') := decideCLILogin s id code decision identity bootstrapHash now
    (.decided d, s')
  | .exchange deviceCode verifier bootstrapHash random now =>
    match exchangeCLILogin sha256 s deviceCode verifier bootstrapHash random now with
    | some (p, s') => (.polled p, s')
    | none => (.failed, s)
  | .create name createdAt expiresAt id secret =>
    match createAPIKey sha256 s name createdAt expiresAt id secret with
    | some s' => (.done, s')
    | none => (.failed, s)
  | .authenticate token now =>
    let (k, s') := authenticateAPIKey sha256 s token now
    (.authenticated k, s')
  | .revoke id now => (.done, revokeAPIKey s id now)
  | .fail => (.failed, s)

/-- The history of a list of calls, and the store they leave. -/
def play (s : MetadataStore) (calls : List Call) : List Event × MetadataStore :=
  calls.foldl (fun w c => (w.1 ++ [⟨c, (exec sha256 w.2 c).1⟩], (exec sha256 w.2 c).2)) ([], s)

theorem play_snoc (s : MetadataStore) (calls : List Call) (c : Call) :
    play sha256 s (calls ++ [c]) =
      ((play sha256 s calls).1 ++ [⟨c, (exec sha256 (play sha256 s calls).2 c).1⟩],
        (exec sha256 (play sha256 s calls).2 c).2) := by
  rw [play, foldl_append]
  rfl

/-- A key is issued for the request whose device code has the given hash. -/
def Completes (deviceHash : Bytes) (e : Event) : Prop :=
  ∃ deviceCode verifier bootstrapHash random now token key,
    e = ⟨.exchange deviceCode verifier bootstrapHash random now, .polled (.complete token key)⟩ ∧
      apiKeyHash sha256 deviceCode = deviceHash

/-! ## One call -/

/-- Nothing happened to a request but that it was polled. -/
structure Same (q q' : CLILoginRequest) : Prop where
  id : q'.id = q.id
  deviceHash : q'.deviceHash = q.deviceHash
  userCode : q'.userCode = q.userCode
  challenge : q'.challenge = q.challenge
  expiresMs : q'.expiresMs = q.expiresMs

/-- Where a request in the table comes from, one call later. -/
inductive Origin (s : MetadataStore) (e : Event) (q' : CLILoginRequest) : Prop
  | started (name challenge random : Bytes) (now : Time)
      (he : e = ⟨.start name challenge random now, .started (newCLILogin random now)⟩)
      (hq : q' = { id := (newCLILogin random now).id
                   deviceHash := apiKeyHash sha256 (newCLILogin random now).deviceCode, name := name
                   userCode := (newCLILogin random now).userCode, challenge := challenge
                   expiresMs := unixMilli now + cliLoginLifetime })
      (hnew : ∀ q ∈ s.requests, unixMilli now < q.expiresMs → q.deviceHash ≠ q'.deviceHash)
  | polled (q : CLILoginRequest) (hq : q ∈ s.requests) (nextPollMs : ℤ)
      (hq' : q' = { q with nextPollMs := nextPollMs }) (hnot : ¬ Completes sha256 q.deviceHash e)
  | approved (q : CLILoginRequest) (hq : q ∈ s.requests) (identity : Identity) (hash : Bytes)
      (now : Time) (he : e = ⟨.decide q.id q.userCode .approve identity hash now, .decided .approved⟩)
      (expiry : ℤ) (parentHash : Bytes)
      (hauthority : authority s identity hash now = some (expiry, parentHash))
      (hq' : q' = { q with status := .approved, approverKeyId := identity.keyId
                           approverHash := parentHash, keyExpiresMs := expiry })
      (hpending : q.status = .pending)
  | closed (q : CLILoginRequest) (hq : q ∈ s.requests) (hsame : Same q q')
      (hstatus : q'.status = .denied ∨ q'.status = .consumed)

variable {sha256} {s : MetadataStore} {q' : CLILoginRequest}

theorem Origin.of_mem (hq : q' ∈ s.requests) (hnot : ¬ Completes sha256 q'.deviceHash e) :
    Origin sha256 s e q' := .polled q' hq q'.nextPollMs rfl hnot

/-- What `startCLILogin` has done when it returns. -/
theorem startCLILogin_ok {name challenge : Bytes} {r : CLILoginStart}
    (h : startCLILogin sha256 s name challenge random now = .ok (r, s')) :
    r = newCLILogin random now ∧ s'.keys = s.keys ∧
      (∀ q ∈ s.requests, unixMilli now < q.expiresMs →
        q.deviceHash ≠ apiKeyHash sha256 r.deviceCode) ∧
      ∀ q', q' ∈ s'.requests → (q' ∈ s.requests ∧ unixMilli now < q'.expiresMs) ∨
        q' = { id := r.id, deviceHash := apiKeyHash sha256 r.deviceCode, name := name
               userCode := r.userCode, challenge := challenge
               expiresMs := unixMilli now + cliLoginLifetime } := by
  unfold startCLILogin at h
  obtain ⟨-, h⟩ := of_ite_eq_ok h
  obtain ⟨hfree, h⟩ := of_ite_eq_ok h
  split at h
  · cases h
  next requests hinsert =>
  cases h
  obtain ⟨-, hmem⟩ := Rows.insert_eq_some hinsert
  refine ⟨rfl, rfl, fun q hq hlive he => hfree ?_, fun q' hq' => ?_⟩
  · exact any_eq_true.mpr ⟨q, Rows.mem_keep.mpr ⟨hq, decide_eq_true hlive⟩, decide_eq_true he⟩
  · rw [hmem, Rows.mem_keep, unixMilli_add] at hq'
    exact hq'.imp (And.imp_right of_decide_eq_true) id

/-- What `decideCLILogin` has done when it has written. -/
theorem decideCLILogin_cases (s : MetadataStore) (id code : Bytes) (decision : Decision)
    (identity : Identity) (hash : Bytes) (now : Time) :
    (decideCLILogin s id code decision identity hash now).2 = s ∧
      (decideCLILogin s id code decision identity hash now).1 ≠ .approved ∨
    ∃ request ∈ s.requests, request.id = id ∧ request.status = .pending ∧ code = request.userCode ∧
      ∃ expiry parentHash, authority s identity hash now = some (expiry, parentHash) ∧
        decideCLILogin s id code decision identity hash now =
          (if decision = .deny then .denied else .approved,
            s.setRequest id (fun q => { q with
              status := if decision = .deny then .denied else .approved
              approverKeyId := identity.keyId, approverHash := parentHash
              keyExpiresMs := expiry }) fun _ => rfl) := by
  unfold decideCLILogin
  split
  · exact .inl ⟨rfl, nofun⟩
  split
  · exact .inl ⟨rfl, nofun⟩
  next request hselect =>
  obtain ⟨hmem, hid⟩ := Rows.select_eq_some hselect
  split
  · exact .inl ⟨rfl, nofun⟩
  split
  · exact .inl ⟨rfl, nofun⟩
  next hpending =>
  split
  · exact .inl ⟨rfl, nofun⟩
  next hcode =>
  split
  · exact .inl ⟨rfl, nofun⟩
  next expiry parentHash hauthority =>
  exact .inr ⟨request, hmem, of_decide_eq_true hid, not_not.mp hpending, not_not.mp hcode, expiry,
    parentHash, hauthority, rfl⟩

/-- A request is exchanged for a key. -/
structure Exchanged (sha256 : Bytes → Bytes) (s : MetadataStore) (deviceCode verifier hash : Bytes)
    (now : Time) (key : APIKey) (request : CLILoginRequest) : Prop where
  mem : request ∈ s.requests
  device : request.deviceHash = apiKeyHash sha256 deviceCode
  verifier : s256 sha256 verifier = request.challenge
  live : unixMilli now < request.expiresMs
  approved : request.status = .approved
  grant : grant s request hash now = some key.expiresMs

/-- What `exchangeCLILogin` has done when it returns. -/
theorem exchangeCLILogin_cases {deviceCode verifier : Bytes} {p : CLILoginPoll}
    (h : exchangeCLILogin sha256 s deviceCode verifier hash random now = some (p, s')) :
    (s' = s ∧ ∀ token key, p ≠ .complete token key) ∨ (∃ request ∈ s.requests, ∃ n, p = .pending ∧
      s' = s.setRequest request.id (fun q => { q with nextPollMs := n }) fun _ => rfl) ∨
    (∃ request ∈ s.requests, p = .denied ∧
      s' = s.setRequest request.id (fun q => { q with status := .denied }) fun _ => rfl) ∨
    ∃ request key token keys, Exchanged sha256 s deviceCode verifier hash now key request ∧
      p = .complete token key ∧ s.keys.insert key = some keys ∧
      s' = { s with keys := keys }.setRequest request.id (fun q => { q with status := .consumed })
        fun _ => rfl := by
  unfold exchangeCLILogin at h
  split at h
  · cases h
    exact .inl ⟨rfl, nofun⟩
  next request hselect =>
  obtain ⟨hmem, hdevice⟩ := Rows.select_eq_some hselect
  obtain ⟨-, h⟩ | ⟨hverifier, h⟩ := ite_eq_iff.mp h
  · cases h
    exact .inl ⟨rfl, nofun⟩
  obtain ⟨-, h⟩ | ⟨hlive, h⟩ := ite_eq_iff.mp h
  · cases h
    exact .inl ⟨rfl, nofun⟩
  obtain ⟨-, h⟩ | ⟨hopen, h⟩ := ite_eq_iff.mp h
  · cases h
    exact .inl ⟨rfl, nofun⟩
  obtain ⟨-, h⟩ | ⟨-, h⟩ := ite_eq_iff.mp h
  · cases h
    exact .inl ⟨rfl, nofun⟩
  obtain ⟨-, h⟩ | ⟨hpending, h⟩ := ite_eq_iff.mp h
  · cases h
    exact .inr (.inl ⟨request, hmem, _, rfl, rfl⟩)
  have happroved : request.status = .approved := by
    cases hstatus : request.status with
    | approved => rfl
    | pending => exact absurd hstatus hpending
    | denied => exact absurd (.inl hstatus) hopen
    | consumed => exact absurd (.inr hstatus) hopen
  split at h
  · cases h
    exact .inr (.inr (.inl ⟨request, hmem, rfl, rfl⟩))
  next expiresMs hgrant =>
  obtain ⟨keys, hkeys, h⟩ := map_eq_some_iff.mp h
  cases h
  exact .inr (.inr (.inr ⟨request, _, _, keys, ⟨hmem, of_decide_eq_true hdevice, not_not.mp hverifier,
    not_le.mp hlive, happroved, hgrant⟩, rfl, hkeys, rfl⟩))

/-! ## Keys are kept -/

/-- The keys of `s` are there, with the expiry they had. -/
def KeepsKeys (s s' : MetadataStore) : Prop :=
  ∀ k ∈ s.keys, ∃ k' ∈ s'.keys, k'.id = k.id ∧ k'.expiresMs = k.expiresMs

theorem KeepsKeys.of_eq (h : s'.keys = s.keys) : KeepsKeys s s' :=
  fun k hk => ⟨k, h ▸ hk, rfl, rfl⟩

theorem KeepsKeys.insert {key : APIKey} (h : s.keys.insert key = some s'.keys) :
    KeepsKeys s s' := fun k hk => ⟨k, ((Rows.insert_eq_some h).2 k).mpr (.inl hk), rfl, rfl⟩

theorem KeepsKeys.modify {id : Bytes} {f : APIKey → APIKey} (hf : ∀ k, (f k).id = k.id)
    (h : s'.keys = s.keys.modify id f hf) (hexp : ∀ k, (f k).expiresMs = k.expiresMs) :
    KeepsKeys s s' := fun k hk => by
  refine ⟨_, h ▸ Rows.mem_modify_of_mem hf hk, ?_, ?_⟩
  · split
    · exact hf k
    · rfl
  · split
    · exact hexp k
    · rfl

theorem KeepsKeys.trans {s₁ s₂ s₃ : MetadataStore} (h : KeepsKeys s₁ s₂) (h' : KeepsKeys s₂ s₃) :
    KeepsKeys s₁ s₃ := fun k hk => by
  obtain ⟨k₂, hk₂, hid, hexp⟩ := h k hk
  obtain ⟨k₃, hk₃, hid', hexp'⟩ := h' k₂ hk₂
  exact ⟨k₃, hk₃, hid'.trans hid, hexp'.trans hexp⟩

/-- No call takes a key away or changes when it expires. -/
theorem exec_keepsKeys (s : MetadataStore) (c : Call) : KeepsKeys s (exec sha256 s c).2 := by
  cases c with
  | start name challenge random now =>
    rw [exec]
    split
    · next h => exact .of_eq (startCLILogin_ok h).2.1
    · exact .of_eq rfl
  | decide id code decision identity hash now =>
    obtain ⟨h, -⟩ | ⟨_, -, -, -, -, _, _, -, h⟩ := decideCLILogin_cases s id code decision identity hash now
    · exact .of_eq (congrArg MetadataStore.keys h)
    · exact .of_eq (congrArg (fun w => w.2.keys) h)
  | exchange deviceCode verifier hash random now =>
    rw [exec]
    split
    · next h =>
      obtain ⟨rfl, -⟩ | ⟨_, -, _, -, rfl⟩ | ⟨_, -, -, rfl⟩ | ⟨_, key, _, keys, -, -, hkeys, rfl⟩ :=
        exchangeCLILogin_cases h
      · exact .of_eq rfl
      · exact .of_eq rfl
      · exact .of_eq rfl
      · exact .insert hkeys
    · exact .of_eq rfl
  | create name createdAt expiresAt id secret =>
    rw [exec]
    split
    · next h =>
      obtain ⟨keys, hkeys, rfl⟩ := map_eq_some_iff.mp h
      exact .insert hkeys
    · exact .of_eq rfl
  | authenticate token now =>
    rw [exec, authenticateAPIKey]
    dsimp only
    split
    · exact .of_eq rfl
    split
    · exact .of_eq rfl
    · exact .modify (by exact fun _ => rfl) rfl fun _ => rfl
  | revoke id now => exact .modify (by exact fun _ => rfl) rfl fun _ => rfl
  | fail => exact .of_eq rfl

variable (sha256) in
theorem play_keepsKeys (s : MetadataStore) (calls more : List Call) :
    KeepsKeys (play sha256 s calls).2 (play sha256 s (calls ++ more)).2 := by
  induction more using List.reverseRecOn with
  | nil => exact .of_eq (by rw [append_nil])
  | append_singleton more c ih =>
    rw [← append_assoc, play_snoc]
    exact ih.trans (exec_keepsKeys _ c)

/-! ## Requests go back to their start -/

variable {f : CLILoginRequest → CLILoginRequest} {hf : ∀ q, (f q).id = q.id}

theorem mem_setRequest {id : Bytes} : q' ∈ (s.setRequest id f hf).requests ↔
      ∃ q ∈ s.requests, (if q.id = id then f q else q) = q' := Rows.mem_modify hf

/-- Two requests never have the same device code. -/
def UniqueDevices (s : MetadataStore) : Prop :=
  ∀ q₁ ∈ s.requests, ∀ q₂ ∈ s.requests, q₁.deviceHash = q₂.deviceHash → q₁ = q₂

theorem UniqueDevices.setRequest (h : UniqueDevices s) {id : Bytes}

    (hdev : ∀ q, (f q).deviceHash = q.deviceHash) : UniqueDevices (s.setRequest id f hf) := by
  intro q₁ h₁ q₂ h₂ he
  obtain ⟨p₁, hp₁, rfl⟩ := mem_setRequest.mp h₁
  obtain ⟨p₂, hp₂, rfl⟩ := mem_setRequest.mp h₂
  have hsame : ∀ q : CLILoginRequest, (if q.id = id then f q else q).deviceHash = q.deviceHash :=
    fun q => by
      split
      · exact hdev q
      · rfl
  rw [hsame, hsame] at he
  rw [h p₁ hp₁ p₂ hp₂ he]

theorem exec_uniqueDevices (h : UniqueDevices s) (c : Call) :
    UniqueDevices (exec sha256 s c).2 := by
  cases c with
  | start name challenge random now =>
    rw [exec]
    split
    · next r s' hs =>
      obtain ⟨-, -, hfree, hmem⟩ := startCLILogin_ok hs
      intro q₁ h₁ q₂ h₂ he
      obtain ⟨h₁, hl₁⟩ | rfl := hmem q₁ h₁ <;> obtain ⟨h₂, hl₂⟩ | rfl := hmem q₂ h₂
      · exact h q₁ h₁ q₂ h₂ he
      · exact absurd he (hfree q₁ h₁ hl₁)
      · exact absurd he.symm (hfree q₂ h₂ hl₂)
      · rfl
    · exact h
  | decide id code decision identity hash now =>
    change UniqueDevices (decideCLILogin s id code decision identity hash now).2
    obtain ⟨hs, -⟩ | ⟨_, -, -, -, -, _, _, -, hs⟩ :=
      decideCLILogin_cases s id code decision identity hash now
    · rwa [hs]
    · rw [hs]
      exact h.setRequest fun _ => rfl
  | exchange deviceCode verifier hash random now =>
    rw [exec]
    split
    · next hs =>
      obtain ⟨rfl, -⟩ | ⟨_, -, _, -, rfl⟩ | ⟨_, -, -, rfl⟩ | ⟨_, _, _, keys, -, -, -, rfl⟩ :=
        exchangeCLILogin_cases hs
      · exact h
      · exact h.setRequest fun _ => rfl
      · exact h.setRequest fun _ => rfl
      · exact UniqueDevices.setRequest (s := { s with keys := keys }) h fun _ => rfl
    · exact h
  | create name createdAt expiresAt id secret =>
    rw [exec]
    split
    · next hs =>
      obtain ⟨keys, -, rfl⟩ := map_eq_some_iff.mp hs
      exact h
    · exact h
  | authenticate token now =>
    rw [exec, authenticateAPIKey]
    dsimp only
    split
    · exact h
    split <;> exact h
  | revoke id now => exact h
  | fail => exact h

/-- **Where the requests in the table come from**, one call later. -/
theorem exec_origin (hunique : UniqueDevices s) (c : Call) (hq : q' ∈ (exec sha256 s c).2.requests) :
    Origin sha256 s ⟨c, (exec sha256 s c).1⟩ q' := by
  -- Only an exchange completes a request.
  have hother : (∀ d v b r n, c ≠ .exchange d v b r n) → ∀ h r, ¬ Completes sha256 h ⟨c, r⟩ := by
    rintro hne h r ⟨d, v, b, r, n, token, key, he, -⟩
    exact hne d v b r n (congrArg Event.call he)
  cases c with
  | start name challenge random now =>
    rcases hs : startCLILogin sha256 s name challenge random now with err | ⟨r, s'⟩
    · simp only [exec, hs] at hq ⊢
      exact .of_mem hq (hother nofun _ _)
    · simp only [exec, hs] at hq ⊢
      obtain ⟨rfl, -, hfree, hmem⟩ := startCLILogin_ok hs
      obtain ⟨hq, -⟩ | hq := hmem q' hq
      · exact .of_mem hq (hother nofun _ _)
      · refine .started name challenge random now rfl hq fun q hq' hlive => ?_
        rw [hq]
        exact hfree q hq' hlive
  | decide id code decision identity hash now =>
    change q' ∈ (decideCLILogin s id code decision identity hash now).2.requests at hq
    change Origin sha256 s ⟨_, .decided (decideCLILogin s id code decision identity hash now).1⟩ q'
    obtain ⟨hs, -⟩ | ⟨request, hmem, rfl, hpending, rfl, expiry, parentHash, hauthority, hs⟩ :=
      decideCLILogin_cases s id code decision identity hash now
    · rw [hs] at hq
      exact .of_mem hq (hother nofun _ _)
    · rw [hs] at hq ⊢
      obtain ⟨q, hold, rfl⟩ := mem_setRequest.mp hq
      by_cases hid : q.id = request.id
      · obtain rfl := Rows.eq_of_key hold hmem hid
        rw [if_pos rfl]
        cases decision with
        | approve => exact .approved q hold identity hash now rfl expiry parentHash hauthority rfl hpending
        | deny => exact .closed q hold ⟨rfl, rfl, rfl, rfl, rfl⟩ (.inl rfl)
      · rw [if_neg hid]
        exact .of_mem hold (hother nofun _ _)
  | exchange deviceCode verifier hash random now =>
    rcases hs : exchangeCLILogin sha256 s deviceCode verifier hash random now with _ | ⟨p, s'⟩
    · simp only [exec, hs] at hq ⊢
      exact .of_mem hq fun ⟨d, v, b, r, n, token, key, he, _⟩ => by cases he
    simp only [exec, hs] at hq ⊢
    have hpoll : (∀ token key, p ≠ .complete token key) →
        ∀ h c, ¬ Completes sha256 h ⟨c, .polled p⟩ := by
      rintro hne h c ⟨d, v, b, r, n, token, key, he, -⟩
      cases he
      exact hne token key rfl
    obtain ⟨rfl, hp⟩ | ⟨request, -, n, rfl, rfl⟩ | ⟨request, -, rfl, rfl⟩ |
      ⟨request, key, token, keys, hex, rfl, -, rfl⟩ := exchangeCLILogin_cases hs
    · exact .of_mem hq (hpoll hp _ _)
    · obtain ⟨q, hold, rfl⟩ := mem_setRequest.mp hq
      split
      · exact .polled q hold n rfl (hpoll nofun _ _)
      · exact .of_mem hold (hpoll nofun _ _)
    · obtain ⟨q, hold, rfl⟩ := mem_setRequest.mp hq
      split
      · exact .closed q hold ⟨rfl, rfl, rfl, rfl, rfl⟩ (.inl rfl)
      · exact .of_mem hold (hpoll nofun _ _)
    · obtain ⟨q, hold, rfl⟩ := mem_setRequest.mp hq
      split
      · exact .closed q hold ⟨rfl, rfl, rfl, rfl, rfl⟩ (.inr rfl)
      · next hid =>
        refine .of_mem hold ?_
        rintro ⟨d, v, b, r, n, token', key', he, hdev⟩
        cases he
        refine hid (congrArg _ (hunique q hold request hex.mem ?_))
        rw [hex.device, hdev]
  | create name createdAt expiresAt id secret =>
    refine .of_mem ?_ (hother nofun _ _)
    simp only [exec] at hq
    split at hq
    · next hs =>
      obtain ⟨keys, -, rfl⟩ := map_eq_some_iff.mp hs
      exact hq
    · exact hq
  | authenticate token now =>
    refine .of_mem ?_ (hother nofun _ _)
    simp only [exec, authenticateAPIKey] at hq
    split at hq
    · exact hq
    split at hq <;> exact hq
  | revoke id now => exact .of_mem hq (hother nofun _ _)
  | fail => exact .of_mem hq (hother nofun _ _)

/-- A request was approved, with its own code, in one of the events `since` it was started. -/
def ApprovedSince (since : List Event) (q : CLILoginRequest) : Prop :=
  ∃ identity hash now,
    ⟨.decide q.id q.userCode .approve identity hash now, .decided .approved⟩ ∈ since ∧
    q.approverKeyId = identity.keyId ∧
    (identity.keyId = [] → identity.subject = operator ∧ q.approverHash = hash) ∧
    q.keyExpiresMs ≤ unixMilli now + keyLifetime

variable (sha256) in
/-- A request goes back to the event that started it. -/
def Traced (evs : List Event) (q : CLILoginRequest) : Prop :=
  ∃ name random now before since,
    evs = before ++ ⟨.start name q.challenge random now, .started (newCLILogin random now)⟩ :: since ∧
    q.id = (newCLILogin random now).id ∧
    q.deviceHash = apiKeyHash sha256 (newCLILogin random now).deviceCode ∧
    q.userCode = (newCLILogin random now).userCode ∧
    q.expiresMs = unixMilli now + cliLoginLifetime ∧
    (q.status = .pending ∨ q.status = .approved → ∀ e ∈ since, ¬ Completes sha256 q.deviceHash e) ∧
    (q.status = .approved → ApprovedSince since q)

theorem authority_spec {identity : Identity} {parentHash : Bytes} {expiry : ℤ}
    (h : authority s identity hash now = some (expiry, parentHash)) :
    expiry ≤ unixMilli now + keyLifetime ∧
      (identity.keyId = [] → identity.subject = operator ∧ parentHash = hash) := by
  unfold authority at h
  rw [unixMilli_add] at h
  split at h
  · next hkey =>
    obtain ⟨parent, -, h⟩ := map_eq_some_iff.mp h
    cases h
    refine ⟨?_, fun hnil => absurd hnil hkey⟩
    split <;> omega
  split at h
  · next hoperator =>
    cases h
    exact ⟨le_rfl, fun _ => ⟨hoperator, rfl⟩⟩
  · cases h

theorem ApprovedSince.snoc {since : List Event} {q : CLILoginRequest} (h : ApprovedSince since q)
    (e : Event) : ApprovedSince (since ++ [e]) q := by
  obtain ⟨identity, hash, now, hmem, h⟩ := h
  exact ⟨identity, hash, now, mem_append_left _ hmem, h⟩

theorem forall_mem_snoc {P : Event → Prop} {since : List Event} (h : ∀ e ∈ since, P e) (he : P e) :
    ∀ e' ∈ since ++ [e], P e' := by
  intro e' hmem
  obtain hmem | hmem := mem_append.mp hmem
  · exact h e' hmem
  · rwa [mem_singleton.mp hmem]

/-- **One call later the requests still go back to their start.** -/
theorem Origin.traced {evs : List Event} (ho : Origin sha256 s e q')
    (h : ∀ q ∈ s.requests, Traced sha256 evs q) : Traced sha256 (evs ++ [e]) q' := by
  cases ho with
  | started name challenge random now he hq hnew =>
    subst hq he
    exact ⟨name, random, now, evs, [], rfl, rfl, rfl, rfl, rfl, fun _ => forall_mem_nil _, nofun⟩
  | polled q hq nextPollMs hq' hnot =>
    obtain ⟨name, random, now, before, since, rfl, hid, hdev, hcode, hexp, hnone, happr⟩ := h q hq
    subst hq'
    refine ⟨name, random, now, before, since ++ [e], append_assoc .., hid, hdev, hcode, hexp, fun hs => ?_,
      fun hs => ?_⟩
    · exact forall_mem_snoc (hnone hs) hnot
    · obtain ⟨identity, hash, t, hmem, hrest⟩ := (happr hs).snoc e
      exact ⟨identity, hash, t, hmem, hrest⟩
  | approved q hq identity hash t he expiry parentHash hauthority hq' hpending =>
    obtain ⟨name, random, now, before, since, rfl, hid, hdev, hcode, hexp, hnone, -⟩ := h q hq
    obtain ⟨hmax, hteam⟩ := authority_spec hauthority
    subst hq' he
    refine ⟨name, random, now, before, since ++ [_], append_assoc .., hid, hdev, hcode, hexp,
      fun _ => ?_, fun _ => ?_⟩
    · refine forall_mem_snoc (hnone (.inl hpending)) ?_
      rintro ⟨d, v, b, r, n, token, key, he, -⟩
      cases he
    · exact ⟨identity, hash, t, mem_append_right _ (mem_singleton_self _), rfl, hteam, hmax⟩
  | closed q hq hsame hstatus =>
    obtain ⟨name, random, now, before, since, rfl, hid, hdev, hcode, hexp, -, -⟩ := h q hq
    refine ⟨name, random, now, before, since ++ [e], ?_, hsame.id.trans hid,
      hsame.deviceHash.trans hdev, hsame.userCode.trans hcode, hsame.expiresMs.trans hexp,
      fun hs => ?_, fun hs => ?_⟩
    · rw [hsame.challenge]
      exact append_assoc ..
    · obtain hs | hs := hs <;> obtain hs' | hs' := hstatus <;> cases hs.symm.trans hs'
    · obtain hs' | hs' := hstatus <;> cases hs.symm.trans hs'

variable (sha256) in
/-- **In every run the requests go back to their start.** -/
theorem play_traced {s₀ : MetadataStore} (hs₀ : s₀.requests = ∅) (calls : List Call) :
    UniqueDevices (play sha256 s₀ calls).2 ∧
      ∀ q ∈ (play sha256 s₀ calls).2.requests, Traced sha256 (play sha256 s₀ calls).1 q := by
  induction calls using List.reverseRecOn with
  | nil =>
    have hnone : ∀ q, ¬ q ∈ (play sha256 s₀ []).2.requests := fun q hq => by
      change q ∈ s₀.requests at hq
      rw [hs₀] at hq
      exact Rows.not_mem_empty hq
    exact ⟨fun q hq => absurd hq (hnone q), fun q hq => absurd hq (hnone q)⟩
  | append_singleton calls c ih =>
    rw [play_snoc]
    exact ⟨exec_uniqueDevices ih.1 c, fun q hq => (exec_origin ih.1 c hq).traced ih.2⟩

/-! ## What is issued -/

/-- An identity rests on a named key that is live, and which the issued key does not outlive, or on
the team token, which is still the one it was. -/
structure Vouched (s : MetadataStore) (identity : Identity) (approvedHash hash : Bytes) (now : Time)
    (expiresMs : ℤ) : Prop where
  key : identity.keyId ≠ [] → ∃ parent ∈ s.keys, parent.id = identity.keyId ∧
    parent.live now = true ∧ (parent.expiresMs ≠ 0 → expiresMs ≤ parent.expiresMs)
  team : identity.keyId = [] → identity.subject = operator ∧ approvedHash = hash

/-- What an approval still gives. -/
theorem grant_spec {q : CLILoginRequest} {expiresMs : ℤ} (h : grant s q hash now = some expiresMs) :
    unixMilli now < expiresMs ∧ expiresMs ≤ q.keyExpiresMs ∧
      (q.approverKeyId ≠ [] → ∃ parent ∈ s.keys, parent.id = q.approverKeyId ∧
        parent.live now = true ∧ (parent.expiresMs ≠ 0 → expiresMs ≤ parent.expiresMs)) ∧
      (q.approverKeyId = [] → q.approverHash = hash) := by
  have hclock : 0 ≤ unixMilli now := Int.natCast_nonneg _
  unfold grant at h
  split at h
  · next hkey =>
    split at h
    · cases h
    next parentExpiry hparent =>
    obtain ⟨parent, hselect, rfl⟩ := map_eq_some_iff.mp hparent
    obtain ⟨hmem, hp⟩ := Rows.select_eq_some hselect
    obtain ⟨hid, hlive⟩ := of_decide_eq_true hp
    obtain ⟨-, hexp⟩ := of_decide_eq_true hlive
    obtain ⟨-, h⟩ | ⟨hbound, h⟩ := ite_eq_iff.mp h
    · cases h
    cases h
    refine ⟨?_, ?_, fun _ => ⟨parent, hmem, hid, hlive, fun hne => ?_⟩, fun hnil => absurd hnil hkey⟩
    · split <;> omega
    · split <;> omega
    · split <;> omega
  · next hkey =>
    obtain ⟨-, h⟩ | ⟨hbound, h⟩ := ite_eq_iff.mp h
    · cases h
    cases h
    rw [not_or, not_le, not_not] at hbound
    exact ⟨hbound.1, le_rfl, fun hne => absurd hne hkey, fun _ => hbound.2⟩

/-- A key that authenticates is in the table and live. -/
theorem authenticateAPIKey_some {token : Bytes} {k : APIKey}
    (h : (authenticateAPIKey sha256 s token now).1 = some k) :
    ∃ row ∈ s.keys, row.id = k.id ∧ row.live now = true := by
  unfold authenticateAPIKey at h
  dsimp only at h
  split at h
  · cases h
  split at h
  · cases h
  next row hselect =>
  obtain ⟨hmem, hp⟩ := Rows.select_eq_some hselect
  obtain ⟨-, h⟩ | ⟨-, h⟩ := ite_eq_iff.mp h
  · cases h
    exact ⟨row, hmem, rfl, (of_decide_eq_true hp).2.2⟩
  · cases h

/-- What has happened when a key is issued. -/
theorem exec_complete {deviceCode verifier : Bytes} {token : Bytes} {key : APIKey}
    (h : (exec sha256 s (.exchange deviceCode verifier hash random now)).1 =
      .polled (.complete token key)) :
    ∃ request, Exchanged sha256 s deviceCode verifier hash now key request ∧
      key ∈ (exec sha256 s (.exchange deviceCode verifier hash random now)).2.keys := by
  rcases hs : exchangeCLILogin sha256 s deviceCode verifier hash random now with _ | ⟨p, s'⟩
  · simp [exec, hs] at h
  · simp only [exec, hs] at h ⊢
    obtain ⟨-, hp⟩ | ⟨_, -, _, rfl, -⟩ | ⟨_, -, rfl, -⟩ |
      ⟨request, key', token', keys, hex, rfl, hkeys, rfl⟩ := exchangeCLILogin_cases hs
    · exact absurd (Reply.polled.inj h) (hp token key)
    · cases h
    · cases h
    · cases h
      exact ⟨request, hex, ((Rows.insert_eq_some hkeys).2 key).mpr (.inr rfl)⟩

/-- **A CLI login issues at most one key, and that one is bounded.** A key is issued only for a
request that somebody started, for which no key was issued since, which was approved since with its
own code by somebody whose credential is valid when the key is issued, which has not expired, and
whose challenge belongs to the verifier that is presented. The key expires no later than thirty days
after the approval and than the key it was approved with, and it does not authenticate from then on. -/
theorem login_issues_one_bounded_key (s₀ : MetadataStore) (hs₀ : s₀.requests = ∅) (calls : List Call)
    {deviceCode verifier hash random : Bytes} {now : Time} {token : Bytes} {key : APIKey}
    (hissued : (exec sha256 (play sha256 s₀ calls).2
      (.exchange deviceCode verifier hash random now)).1 = .polled (.complete token key)) :
    (∃ name challenge random₀ now₀ before since identity approvedHash now₁,
      (play sha256 s₀ calls).1 = before ++
        ⟨.start name challenge random₀ now₀, .started (newCLILogin random₀ now₀)⟩ :: since ∧
      apiKeyHash sha256 deviceCode = apiKeyHash sha256 (newCLILogin random₀ now₀).deviceCode ∧
      (∀ e ∈ since, ¬ Completes sha256 (apiKeyHash sha256 deviceCode) e) ∧
      ⟨.decide (newCLILogin random₀ now₀).id (newCLILogin random₀ now₀).userCode .approve identity
        approvedHash now₁, .decided .approved⟩ ∈ since ∧
      Vouched (play sha256 s₀ calls).2 identity approvedHash hash now key.expiresMs ∧
      unixMilli now < unixMilli now₀ + cliLoginLifetime ∧
      s256 sha256 verifier = challenge ∧
      key.expiresMs ≤ unixMilli now₁ + keyLifetime) ∧
    ∀ later token' now' k, (exec sha256 (play sha256 s₀
        (calls ++ .exchange deviceCode verifier hash random now :: later)).2
        (.authenticate token' now')).1 = .authenticated (some k) →
      k.id = key.id → unixMilli now' < key.expiresMs := by
  obtain ⟨-, htraced⟩ := play_traced sha256 hs₀ calls
  obtain ⟨request, hex, hkey⟩ := exec_complete hissued
  obtain ⟨hfuture, hcap, hparent, hteam⟩ := grant_spec hex.grant
  refine ⟨?_, fun later token' now' k hauth hid => ?_⟩
  · obtain ⟨name, random₀, now₀, before, since, hevs, hqid, hdev, hcode, hexp, hnone, happr⟩ :=
      htraced request hex.mem
    obtain ⟨identity, approvedHash, now₁, hdecide, hkeyId, hsubject, hmax⟩ := happr hex.approved
    refine ⟨name, request.challenge, random₀, now₀, before, since, identity, approvedHash, now₁, hevs,
      hex.device.symm.trans hdev, ?_, ?_, ⟨?_, fun hnil => ?_⟩, ?_, hex.verifier, hcap.trans hmax⟩
    · rw [← hex.device]
      exact hnone (.inr hex.approved)
    · rwa [← hqid, ← hcode]
    · rwa [hkeyId] at hparent
    · obtain ⟨hoperator, happroved⟩ := hsubject hnil
      exact ⟨hoperator, happroved.symm.trans (hteam (hkeyId.trans hnil))⟩
    · rw [← hexp]
      exact hex.live
  · have hkept := play_keepsKeys sha256 s₀
      (calls ++ [.exchange deviceCode verifier hash random now]) later
    rw [append_assoc, play_snoc] at hkept
    obtain ⟨kept, hmem, hkid, hkexp⟩ := hkept key hkey
    obtain ⟨row, hrow, hrid, hlive⟩ := authenticateAPIKey_some (Reply.authenticated.inj hauth)
    obtain rfl := Rows.eq_of_key hrow hmem (hrid.trans (hid.trans hkid.symm))
    obtain ⟨-, hzero | hlt⟩ := of_decide_eq_true hlive
    · have hclock : 0 ≤ unixMilli now := Int.natCast_nonneg _
      omega
    · rwa [hkexp] at hlt

/-- A request that is started with 56 zero bytes at the time zero and approved with the team token one
second later; the digest of a text is the text. -/
def signIn : List Call :=
  let started := newCLILogin (List.replicate 56 0) 0
  [.start [97] (s256 id [98]) (List.replicate 56 0) 0,
    .decide started.id started.userCode .approve { subject := operator } [99] 1000000000]

/-- The key it is exchanged for. -/
def signInKey : APIKey := (newKey id [97] (List.replicate 48 0) 2592001000 2000000000).2

/-- The call that exchanges the request, two seconds after it was started. -/
def signInExchange : Call :=
  .exchange (newCLILogin (List.replicate 56 0) 0).deviceCode [98] [99] (List.replicate 48 0) 2000000000

theorem signIn_bounded :
    (exec id (play id {} signIn).2 signInExchange).1 =
      .polled (.complete (newKey id [97] (List.replicate 48 0) 2592001000 2000000000).1 signInKey) ∧
    ∃ id' code identity hash now,
      ⟨.decide id' code .approve identity hash now, .decided .approved⟩ ∈ (play id {} signIn).1 ∧
        signInKey.expiresMs ≤ unixMilli now + keyLifetime := by
  have hissued : (exec id (play id {} signIn).2 signInExchange).1 =
      .polled (.complete (newKey id [97] (List.replicate 48 0) 2592001000 2000000000).1 signInKey) := by
    decide +kernel
  obtain ⟨⟨name, challenge, random, now₀, before, since, identity, hash, now₁, hevs, -, -, hdecide, -, -,
    -, hmax⟩, -⟩ := login_issues_one_bounded_key {} rfl signIn hissued
  refine ⟨hissued, (newCLILogin random now₀).id, (newCLILogin random now₀).userCode, identity, hash,
    now₁, ?_, hmax⟩
  rw [hevs]
  exact mem_append_right _ (mem_cons_of_mem _ hdecide)

end Runs

end Afs.ControlPlane.Login
