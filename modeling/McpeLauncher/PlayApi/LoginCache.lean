import McpeLauncher.PlayApi.ConfigRoundTrip

/-!
# The login cache

`encrypted_file_login_cache`: the cookies are numbered, written to a configuration, and that is
encrypted if there is a key. The functions of OpenSSL are parameters.
-/

namespace McpeLauncher.PlayApi

/-- The service and the app, compared as `std::pair` does. -/
abbrev CookieKey := Bytes × Bytes

instance : Ord CookieKey := lexOrd

/-- A token and when it expires, in nanoseconds since the epoch. -/
structure Cookie where
  token : Bytes
  expire : Int64
  deriving DecidableEq

abbrev AuthCookies := Std.TreeMap CookieKey Cookie

/-! ## Encryption -/

/-- What is used of OpenSSL: the derivation of a key and an initialisation vector from a password,
AES-256-CBC with padding (the update and the final call together), and the base64 coding of blocks;
`none` is a failure. -/
structure OpenSsl where
  pbkdf2 : Bytes → Option Bytes
  aesEncrypt : Bytes → Bytes → Bytes
  aesDecrypt : Bytes → Bytes → Bytes
  encodeBlock : Bytes → Bytes
  decodeBlock : Bytes → Option Bytes

namespace Encryption

def encrypt (S : OpenSsl) (raw key : Bytes) : Bytes :=
  match S.pbkdf2 key with
  | none => []
  | some aeskey => S.encodeBlock (S.aesEncrypt aeskey raw)

/-- The length that `EVP_DecodeBlock` returns is cut to whole blocks; a failure is
`-1 / 16 * 16`. -/
def decrypt (S : OpenSsl) (raw key : Bytes) : Bytes :=
  let decoded := (S.decodeBlock raw).getD []
  let ol := decoded.length / 16 * 16
  let decoded := decoded.take ol
  match S.pbkdf2 key with
  | none => []
  | some aeskey => S.aesDecrypt aeskey decoded

end Encryption

/-! ## The cache -/

namespace LoginCache

/-- The fields of a cookie in the configuration. -/
inductive Field
  | service
  | app
  | token
  | expires
  deriving DecidableEq

def Field.name : Field → Bytes
  | .service => ascii "service"
  | .app => ascii "app"
  | .token => ascii "token"
  | .expires => ascii "expires"

def tokenKey (i : Nat) (field : Field) : Bytes :=
  ascii "token." ++ Decimal.natText i ++ ascii "." ++ field.name

def tokenCount : Bytes := ascii "token_count"

/-- `duration_cast` to milliseconds. -/
def expireMs (e : Cookie) : Int := e.expire.toInt.tdiv 1000000

/-- The time point of a number of milliseconds. -/
def ofMs (ms : Int) : Int64 := Int64.ofInt (ms * 1000000)

def setCookie (c : Config) (count : Nat) (e : CookieKey × Cookie) : Config :=
  let c := c.set (tokenKey count .service) (.text e.1.1)
  let c := c.set (tokenKey count .app) (.text e.1.2)
  let c := c.set (tokenKey count .token) (.text e.2.token)
  c.set (tokenKey count .expires) (.text (Decimal.intText (expireMs e.2)))

/-- The loop of `save`; the clock is read for every cookie. -/
def saveLoop : (now : Nat → Int64) → List (CookieKey × Cookie) → Nat → Config → Config
  | _, [], count, c => c.set tokenCount (.text (Decimal.intText count))
  | now, e :: es, count, c =>
    if e.2.expire ≤ now 0 then saveLoop (fun i => now (i + 1)) es count c
    else saveLoop (fun i => now (i + 1)) es (count + 1) (setCookie c count e)

/-- What `save` writes to the file. -/
def save (S : OpenSsl) (key : Bytes) (now : Nat → Int64) (cookies : AuthCookies) : Bytes :=
  let c := saveLoop now cookies.toList 0 {}
  if key = [] then c.save else Encryption.encrypt S c.save key

/-- The loop of `load` over the numbers of the cookies. -/
def loadLoop (c : Config) : List Nat → AuthCookies → Except ConfigError AuthCookies
  | [], cookies => .ok cookies
  | i :: is, cookies =>
    match c.getLong (tokenKey i .expires) 0 with
    | .error x => .error x
    | .ok ms =>
      loadLoop c is (cookies.insert (c.get (tokenKey i .service) [], c.get (tokenKey i .app) [])
        ⟨c.get (tokenKey i .token) [], ofMs ms⟩)

/-- `load` from the content of the file. -/
def load (S : OpenSsl) (key file : Bytes) (cookies : AuthCookies) :
    Except ConfigError AuthCookies :=
  match Config.load {} (if key = [] then file else Encryption.decrypt S file key) with
  | .error x => .error x
  | .ok c =>
    match c.getInt tokenCount 0 with
    | .error x => .error x
    | .ok n => loadLoop c (List.range n.toNat) cookies

/-! ## The entries of the cookies -/

def fieldText (e : CookieKey × Cookie) : Field → Bytes
  | .service => e.1.1
  | .app => e.1.2
  | .token => e.2.token
  | .expires => Decimal.intText (expireMs e.2)

/-- What `save` sets, in order, for cookies that are numbered from `n`. -/
def cookieEntries : Nat → List (CookieKey × Cookie) → List (Bytes × Bytes)
  | n, [] => [(tokenCount, Decimal.intText n)]
  | n, e :: es =>
    [Field.service, .app, .token, .expires].map (fun f => (tokenKey n f, fieldText e f)) ++
      cookieEntries (n + 1) es

section Keys

end Keys

section Entries

variable {es : List (CookieKey × Cookie)} {n : Nat}

theorem cookieEntries_field {j : Nat} {e : CookieKey × Cookie} (he : es[j]? = some e) (f : Field) :
    (tokenKey (n + j) f, fieldText e f) ∈ cookieEntries n es := by
  induction es generalizing n j with
  | nil => simp at he
  | cons e' es ih =>
    cases j with
    | zero =>
      cases he
      exact List.mem_append_left _ (List.mem_map.mpr ⟨f, by cases f <;> decide, rfl⟩)
    | succ j =>
      have h := ih (n := n + 1) he
      rw [Nat.add_right_comm, Nat.add_assoc] at h
      exact List.mem_append_right _ h

theorem cookieEntries_count : (tokenCount, Decimal.intText (n + es.length : Nat)) ∈ cookieEntries n es := by
  induction es generalizing n with
  | nil => exact .head _
  | cons e es ih =>
    have h := ih (n := n + 1)
    rw [Nat.add_right_comm, Nat.add_assoc] at h
    exact List.mem_append_right _ h

end Entries

/-- A configuration that has the entries of the cookies. -/
def HasEntries (c : Config) (es : List (CookieKey × Cookie)) : Prop :=
  ∀ p ∈ cookieEntries 0 es, c.entries[p.1]? = some (.text p.2)

section RoundTrip

variable {es : List (CookieKey × Cookie)} {c : Config}

/-- The expiry in the unit that is stored. -/
def truncateMs (e : Cookie) : Cookie := { e with expire := ofMs (expireMs e) }

/-- The stored unit fits, so that the expiry is rounded towards zero and nothing else happens. -/
theorem toInt_truncateMs (e : Cookie) :
    (truncateMs e).expire.toInt = e.expire.toInt.tdiv 1000000 * 1000000 := by
  have hlo := e.expire.le_toInt
  have hhi := e.expire.toInt_lt
  have hms : (expireMs e).natAbs = e.expire.toInt.natAbs / 1000000 :=
    Int.natAbs_tdiv e.expire.toInt 1000000
  apply Int64.toInt_ofInt_of_le
  · omega
  · omega

/-- What is read for a field of a cookie. -/
theorem HasEntries.field (h : HasEntries c es) {j : Nat} {e : CookieKey × Cookie}
    (he : es[j]? = some e) (f : Field) :
    c.entries[tokenKey j f]? = some (.text (fieldText e f)) := by
  have hmem := cookieEntries_field (n := 0) he f
  rw [Nat.zero_add] at hmem
  exact h _ hmem

theorem HasEntries.get (h : HasEntries c es) {j : Nat} {e : CookieKey × Cookie}
    (he : es[j]? = some e) (f : Field) (defaultVal : Bytes) :
    c.get (tokenKey j f) defaultVal = fieldText e f := by
  rw [Config.get, h.field he f]

theorem HasEntries.getLong (h : HasEntries c es) {j : Nat} {e : CookieKey × Cookie}
    (he : es[j]? = some e) : c.getLong (tokenKey j .expires) 0 = .ok (expireMs e.2) := by
  have hlo := e.2.expire.le_toInt
  have hhi := e.2.expire.toInt_lt
  have hms : (expireMs e.2).natAbs = e.2.expire.toInt.natAbs / 1000000 :=
    Int.natAbs_tdiv e.2.expire.toInt 1000000
  have hrange : -2 ^ 63 ≤ expireMs e.2 ∧ expireMs e.2 < 2 ^ 63 := by omega
  simp only [Config.getLong, h.field he .expires, fieldText, Decimal.readInt_intText, if_pos hrange]

theorem HasEntries.getInt (h : HasEntries c es) : c.getInt tokenCount 0 = .ok es.length := by
  have hcount := h _ (cookieEntries_count (n := 0))
  rw [Nat.zero_add] at hcount
  simp only [Config.getInt, hcount, Decimal.readInt_intText]

/-- The loop of `load` inserts the cookies, from any of them on. -/
theorem HasEntries.loadLoop (h : HasEntries c es) (rest : List (CookieKey × Cookie)) (n : Nat)
    (hrest : ∀ j, rest[j]? = es[n + j]?) (cookies : AuthCookies) :
    LoginCache.loadLoop c (List.range' n rest.length) cookies =
      .ok (rest.foldl (fun m e => m.insert e.1 (truncateMs e.2)) cookies) := by
  induction rest generalizing n cookies with
  | nil => rfl
  | cons e rest ih =>
    have he : es[n]? = some e := (hrest 0).symm
    rw [List.length_cons, List.range'_succ, LoginCache.loadLoop, h.getLong he]
    simp only [h.get he, fieldText]
    apply ih (n + 1)
    intro j
    rw [Nat.add_right_comm, Nat.add_assoc]
    exact hrest (j + 1)

end RoundTrip

end LoginCache
end McpeLauncher.PlayApi
