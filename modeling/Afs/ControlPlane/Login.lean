import Afs.ControlPlane.Manifest
import Afs.Foundations.Rows

/-!
# Signing the CLI in through a browser

`cli_login.go` and the named keys of `api_keys_sql.go`. The CLI starts a request and keeps a device
code and a verifier to itself; an administrator approves or denies the request in a browser, with
the code the CLI shows; the CLI polls and is given a key of its own.

Every function is one database transaction that takes a lock on the row it reads first, so it is a
function on the two tables. A transaction that fails is rolled back. The random bytes a transaction
draws and the time it was called at are among its arguments. Times are nanoseconds since 1970; the
columns that end in `ms` hold milliseconds. SHA-256 is any function.
-/

namespace Afs.ControlPlane.Login

/-! ## Times and texts -/

/-- `time.Time`, in nanoseconds since 1970. -/
abbrev Time := ℕ

/-- `UnixMilli`. -/
def unixMilli (t : Time) : ℤ := (t / 1000000 : ℕ)

/-- `time.UnixMilli`. -/
def ofUnixMilli (ms : ℕ) : Time := ms * 1000000

/-- `cliLoginLifetime`, ten minutes in milliseconds. -/
def cliLoginLifetime : ℕ := 600000

/-- The life of the key that is issued, thirty days in milliseconds. -/
def keyLifetime : ℕ := 2592000000

/-- `cliLoginPollInterval`, in seconds. -/
def cliLoginPollInterval : ℕ := 2

/-- `cliLoginMaxOutstanding`. -/
def cliLoginMaxOutstanding : ℕ := 256

theorem unixMilli_add (t : Time) (ms : ℕ) : unixMilli (t + ofUnixMilli ms) = unixMilli t + ms := by
  rw [unixMilli, unixMilli, ofUnixMilli]
  omega

/-- The lower-case digit of a number below sixteen. -/
def hexDigit (n : ℕ) : UInt8 := .ofNat (if n < 10 then 48 + n else 87 + n)

/-- `hex.EncodeToString`. -/
def hexEncode (b : Bytes) : Bytes := b.flatMap fun x => [hexDigit (x.toNat / 16), hexDigit (x.toNat % 16)]

/-- `base64.RawURLEncoding.EncodeToString`. -/
def rawURLEncode (b : Bytes) : Bytes :=
  ((Base64.encode b).filter (· ≠ Base64.pad)).map fun d => if d = 43 then 45 else if d = 47 then 95 else d

/-- A digit of the URL alphabet. -/
def isURLDigit (d : UInt8) : Bool := d = 45 ∨ d = 95 ∨ (d ≠ 43 ∧ d ≠ 47 ∧ (Base64.value d).isSome)

/-- `key_` -/
def keyPrefix : Bytes := ascii ['k', 'e', 'y', '_']

/-- `afs_` -/
def tokenPrefix : Bytes := ascii ['a', 'f', 's', '_']

/-- `cli_` -/
def requestPrefix : Bytes := ascii ['c', 'l', 'i', '_']

/-- The subject of the identity that the team token gives. -/
def operator : Bytes := ascii ['o', 'p', 'e', 'r', 'a', 't', 'o', 'r']

/-- `validAPIKeyID`: the prefix and 32 lower-case digits. -/
def validAPIKeyID (id : Bytes) : Bool :=
  keyPrefix.isPrefixOf id ∧ id.length = 36 ∧
    (id.drop 4).all fun d => (48 ≤ d ∧ d ≤ 57) ∨ (97 ≤ d ∧ d ≤ 102)

/-! ## The tables -/

/-- A row of `api_keys`. An empty text is `none`; `expiresMs = 0` is no expiry. -/
structure APIKey where
  id : Bytes
  name : Bytes
  createdAt : Time
  lastUsedAt : Option Time := none
  expiresAt : Option Time := none
  expiresMs : ℤ := 0
  revokedAt : Option Time := none
  hash : Bytes
  deriving DecidableEq, Repr

/-- The status of a request. -/
inductive Status
  | pending
  | approved
  | denied
  | consumed
  deriving DecidableEq, Repr

/-- A row of `cli_login_requests`. -/
structure CLILoginRequest where
  id : Bytes
  deviceHash : Bytes
  name : Bytes
  userCode : Bytes
  challenge : Bytes
  expiresMs : ℤ
  nextPollMs : ℤ := 0
  status : Status := .pending
  approverKeyId : Bytes := []
  approverHash : Bytes := []
  keyExpiresMs : ℤ := 0
  deriving DecidableEq, Repr

/-- `MetadataStore`: the two tables. -/
structure MetadataStore where
  requests : Rows CLILoginRequest.id := ∅
  keys : Rows APIKey.id := ∅

/-- The columns of a request are written, but not its key. -/
def MetadataStore.setRequest (s : MetadataStore) (id : Bytes) (f : CLILoginRequest → CLILoginRequest)
    (hf : ∀ q, (f q).id = q.id) : MetadataStore :=
  { s with requests := s.requests.modify id f hf }

/-- `authenticatedIdentity`, and whether its store is this one. -/
structure Identity where
  subject : Bytes
  keyId : Bytes := []
  ours : Bool := true
  deriving DecidableEq, Repr

section Transactions

variable (sha256 : Bytes → Bytes) (s : MetadataStore)

/-- `apiKeyHash`. -/
def apiKeyHash (token : Bytes) : Bytes := hexEncode (sha256 token)

/-- The challenge of a verifier: its digest, in the URL encoding. -/
def s256 (verifier : Bytes) : Bytes := rawURLEncode (sha256 verifier)

/-! ## Named keys -/

/-- `createAPIKey`. -/
def createAPIKey (name : Bytes) (createdAt : Time) (expiresAt : Option Time) (id secret : Bytes) :
    Option MetadataStore :=
  let keyId := keyPrefix ++ hexEncode id
  let token := tokenPrefix ++ keyId ++ 46 :: rawURLEncode secret
  (s.keys.insert
    { id := keyId, name := name, createdAt := createdAt, expiresAt := expiresAt
      expiresMs := (expiresAt.map unixMilli).getD 0, hash := apiKeyHash sha256 token }).map
    fun keys => { s with keys := keys }

/-- A key is neither revoked nor expired. -/
def APIKey.live (k : APIKey) (now : Time) : Bool :=
  k.revokedAt = none ∧ (k.expiresMs = 0 ∨ unixMilli now < k.expiresMs)

/-- `authenticateAPIKey`: the last use is written where the key is found live; then the row is read
once more for its status. -/
def authenticateAPIKey (token : Bytes) (now : Time) : Option APIKey × MetadataStore :=
  let before := token.takeWhile (· ≠ 46)
  let secret := (token.dropWhile (· ≠ 46)).drop 1
  let id := before.drop 4
  if ¬ (46 ∈ token ∧ tokenPrefix.isPrefixOf before ∧ validAPIKeyID id ∧ secret.length = 43 ∧
      secret.all isURLDigit) then (none, s)
  else
    match s.keys.select fun k => k.id = id ∧ k.hash = apiKeyHash sha256 token ∧ k.live now with
    | none => (none, s)
    | some k =>
      let used := { k with lastUsedAt := some now }
      let keys := s.keys.modify id (fun k => { k with lastUsedAt := some now }) fun _ => rfl
      let active := k.name ≠ [] ∧ k.expiresAt.all (now < ·)
      (if active then some used else none, { s with keys := keys })

/-- `revokeAPIKey`: the first revocation counts. -/
def revokeAPIKey (id : Bytes) (now : Time) : MetadataStore :=
  let keys := s.keys.modify id (fun k => { k with revokedAt := some (k.revokedAt.getD now) }) fun _ => rfl
  { s with keys := keys }

/-! ## Requests -/

/-- `CLILoginStart`. -/
structure CLILoginStart where
  id : Bytes
  deviceCode : Bytes
  userCode : Bytes
  expiresAt : Time
  deriving DecidableEq, Repr

/-- The alphabet of user codes. -/
def alphabet : Bytes := ascii ['A', 'B', 'C', 'D', 'E', 'F', 'G', 'H', 'J', 'K', 'L', 'M', 'N', 'P', 'Q',
  'R', 'S', 'T', 'U', 'V', 'W', 'X', 'Y', 'Z', '2', '3', '4', '5', '6', '7', '8', '9']

/-- What `startCLILogin` makes of 56 random bytes. -/
def newCLILogin (random : Bytes) (now : Time) : CLILoginStart :=
  let code := ((random.drop 48).take 8).map fun x => alphabet.getD (x.toNat % alphabet.length) 0
  { id := requestPrefix ++ hexEncode (random.take 16)
    deviceCode := rawURLEncode ((random.drop 16).take 32)
    userCode := code.take 4 ++ 45 :: code.drop 4
    expiresAt := now + ofUnixMilli cliLoginLifetime }

/-- Why `startCLILogin` fails. -/
inductive StartError
  | capacity
  | storage
  deriving DecidableEq, Repr

/-- `startCLILogin`: expired requests are removed first. Both the identity and the hash of the device
code are unique in the table. -/
def startCLILogin (name challenge random : Bytes) (now : Time) :
    Except StartError (CLILoginStart × MetadataStore) :=
  let result := newCLILogin random now
  let requests := s.requests.keep fun q => unixMilli now < q.expiresMs
  if cliLoginMaxOutstanding ≤ requests.list.length then .error .capacity
  else
    let deviceHash := apiKeyHash sha256 result.deviceCode
    if requests.list.any (·.deviceHash = deviceHash) then .error .storage
    else
      match requests.insert
        { id := result.id, deviceHash := deviceHash, name := name, userCode := result.userCode
          challenge := challenge, expiresMs := unixMilli (now + ofUnixMilli cliLoginLifetime) } with
      | none => .error .storage
      | some requests => .ok (result, { s with requests := requests })

/-- `parentCLILoginExpiry`: the expiry of a key that is live. -/
def parentCLILoginExpiry (id : Bytes) (now : Time) : Option ℤ :=
  (s.keys.select fun k => k.id = id ∧ k.live now).map (·.expiresMs)

/-- The answers of `decideCLILogin`. -/
inductive Decided
  | unauthorized
  | expired
  | conflict
  | invalidCode
  | approved
  | denied
  deriving DecidableEq, Repr

/-- A decision. -/
inductive Decision
  | approve
  | deny
  deriving DecidableEq, Repr

/-- The authority of an identity: the expiry it allows and the hash of the team token, if that is
what it rests on. -/
def authority (identity : Identity) (bootstrapHash : Bytes) (now : Time) : Option (ℤ × Bytes) :=
  let expiry := unixMilli (now + ofUnixMilli keyLifetime)
  if identity.keyId ≠ [] then
    (parentCLILoginExpiry s identity.keyId now).map fun parentExpiry =>
      (if 0 < parentExpiry ∧ parentExpiry < expiry then parentExpiry else expiry, [])
  else if identity.subject = operator then some (expiry, bootstrapHash)
  else none

/-- `decideCLILogin`. -/
def decideCLILogin (id code : Bytes) (decision : Decision) (identity : Identity)
    (bootstrapHash : Bytes) (now : Time) : Decided × MetadataStore :=
  if identity.ours = false ∨ identity.subject = [] then (.unauthorized, s)
  else
    match s.requests.select fun q => q.id = id with
    | none => (.expired, s)
    | some request =>
      if request.expiresMs ≤ unixMilli now then (.expired, s)
      else if request.status ≠ .pending then (.conflict, s)
      else if code ≠ request.userCode then (.invalidCode, s)
      else
        match authority s identity bootstrapHash now with
        | none => (.unauthorized, s)
        | some (expiry, parentHash) =>
          let status := if decision = .deny then Status.denied else .approved
          (if decision = .deny then .denied else .approved,
            s.setRequest id (fun q => { q with
              status := status, approverKeyId := identity.keyId, approverHash := parentHash
              keyExpiresMs := expiry }) fun _ => rfl)

/-- `CLILoginPoll`. -/
inductive CLILoginPoll
  | expired
  | denied
  | pending
  | complete (token : Bytes) (key : APIKey)
  deriving DecidableEq, Repr

/-- Whether an approval still holds, and the expiry it gives the key. -/
def grant (request : CLILoginRequest) (bootstrapHash : Bytes) (now : Time) : Option ℤ :=
  if request.approverKeyId ≠ [] then
    match parentCLILoginExpiry s request.approverKeyId now with
    | none => none
    | some parentExpiry =>
      if request.keyExpiresMs ≤ unixMilli now then none
      else some (if 0 < parentExpiry ∧ parentExpiry < request.keyExpiresMs then parentExpiry
        else request.keyExpiresMs)
  else if request.keyExpiresMs ≤ unixMilli now ∨ request.approverHash ≠ bootstrapHash then none
  else some request.keyExpiresMs

/-- The key that `exchangeCLILogin` makes of 48 random bytes, and its token. -/
def newKey (name random : Bytes) (expiresMs : ℤ) (now : Time) : Bytes × APIKey :=
  let id := keyPrefix ++ hexEncode (random.take 16)
  let token := tokenPrefix ++ id ++ 46 :: rawURLEncode (random.drop 16)
  (token, { id := id, name := name, createdAt := now, expiresAt := some (ofUnixMilli expiresMs.toNat)
            expiresMs := expiresMs, hash := apiKeyHash sha256 token })

/-- `exchangeCLILogin`; `none` is an error of the store. -/
def exchangeCLILogin (deviceCode verifier bootstrapHash random : Bytes) (now : Time) :
    Option (CLILoginPoll × MetadataStore) :=
  match s.requests.select fun q => q.deviceHash = apiKeyHash sha256 deviceCode with
  | none => some (.expired, s)
  | some request =>
    if s256 sha256 verifier ≠ request.challenge then some (.denied, s)
    else if request.expiresMs ≤ unixMilli now then some (.expired, s)
    else if request.status = .denied ∨ request.status = .consumed then some (.denied, s)
    else if unixMilli now < request.nextPollMs then some (.pending, s)
    else if request.status = .pending then
      some (.pending, s.setRequest request.id (fun q => { q with
        nextPollMs := unixMilli (now + ofUnixMilli (cliLoginPollInterval * 1000)) }) fun _ => rfl)
    else
      match grant s request bootstrapHash now with
      | none => some (.denied, s.setRequest request.id (fun q => { q with status := .denied }) fun _ => rfl)
      | some expiresMs =>
        let (token, key) := newKey sha256 request.name random expiresMs now
        (s.keys.insert key).map fun keys =>
          (.complete token key, { s with keys := keys }.setRequest request.id
            (fun q => { q with status := .consumed }) fun _ => rfl)

end Transactions

end Afs.ControlPlane.Login
