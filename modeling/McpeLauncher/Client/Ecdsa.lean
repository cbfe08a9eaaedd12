import Mathlib.Data.Nat.Size
import McpeLauncher.Client.Base64Lines
import McpeLauncher.Lib.Codec
import McpeLauncher.Lib.FillBuffer

/-!
# Keys for signing in

`Ecdsa::sign` exports the numbers of a signature, `EcdsaPublicKey` the coordinates of a public key.
What OpenSSL does is a parameter.
-/

namespace McpeLauncher.Ecdsa
open Codec Base64

/-- OpenSSL with the group prime256v1. -/
structure OpenSsl (Key Point : Type) where
  /-- `EC_GROUP_order_bits` -/
  orderBits : Nat
  /-- `ECDSA_do_sign`, with `ECDSA_SIG_get0_r` and `ECDSA_SIG_get0_s` -/
  doSign : Key → List UInt8 → Option (Option Nat × Option Nat)
  /-- `EC_KEY_get0_public_key` -/
  publicKey : Key → Option Point
  /-- Whether `BN_new` has memory for two numbers. -/
  newNumbers : Bool
  /-- `EC_POINT_get_affine_coordinates` -/
  affineCoordinates : Point → Option (Nat × Nat)
  /-- `BN_num_bytes` -/
  numBytes : Nat → Nat
  /-- What `BN_bn2bin` writes, and it returns how much that is. -/
  bn2bin : Nat → List UInt8
  /-- The same of `BN_bn2binpad`, none where it returns -1. -/
  bn2binpad : Nat → Nat → Option (List UInt8)

section Source
variable {Key Point : Type} (ssl : OpenSsl Key Point)

/-- `BN_bn2binpad` into `buf` at a place. -/
def exportPadded (what : String) (a : Option Nat) (n pos : Nat) (buf : List UInt8) :
    Except String (List UInt8) :=
  match a.bind fun a => ssl.bn2binpad a n with
  | some bytes =>
    if bytes.length ≠ n then .error ("OpenSSL failed to export bignum " ++ what)
    else .ok (FillBuffer.overwrite buf pos bytes)
  | none => .error ("OpenSSL failed to export bignum " ++ what)

def sign (key : Key) (a : List UInt8) : Except String (List UInt8) := do
  let some (r, s) := ssl.doSign key a | throw "OpenSSL failed to sign bytearray"
  let n := (ssl.orderBits + 7) / 8
  if r.isNone then throw "OpenSSL failed to get r"
  if s.isNone then throw "OpenSSL failed to get s"
  let buf ← exportPadded ssl "r" r n 0 (List.replicate (2 * n) 0)
  exportPadded ssl "s" s n n buf

def base64tobase64url (x : UInt8) : UInt8 := if x = 43 then 45 else if x = 47 then 95 else x

/-- The text of a coordinate. -/
def coordinate (a : Nat) : Except String (List UInt8) :=
  let len := ssl.numBytes a
  let buf := FillBuffer.overwrite (List.replicate len 95) 0 (ssl.bn2bin a)
  if (ssl.bn2bin a).length ≠ len then .error "OpenSSL failed to export bignum"
  else .ok ((encode false buf).map base64tobase64url)

structure EcdsaPublicKey where
  xbase64 : List UInt8
  ybase64 : List UInt8

def EcdsaPublicKey.new (key : Key) : Except String EcdsaPublicKey := do
  let some point := ssl.publicKey key | throw "OpenSSL failed to get ecdsa public key"
  if !ssl.newNumbers then throw "OpenSSL failed to allocate bignum"
  let some (x, y) := ssl.affineCoordinates point | throw "OpenSSL failed to get affine coordinates"
  let xbase64 ← coordinate ssl x
  let ybase64 ← coordinate ssl y
  return ⟨xbase64, ybase64⟩

end Source

/-! ## Keys of a fixed width -/

def fieldPrime : Nat := 2 ^ 256 - 2 ^ 224 + 2 ^ 192 + 2 ^ 96 - 1

def curveB : Nat := 0x5ac635d8aa3a93e7b3ebbd55769886bc651d06b0cc53b0f63bce3c3e27d2604b

/-- A point of the curve `y ^ 2 = x ^ 3 - 3 * x + b`. -/
structure P256Point where
  x : Nat
  y : Nat
  x_lt : x < fieldPrime
  y_lt : y < fieldPrime
  onCurve : (y * y + 3 * x) % fieldPrime = (x * x * x + curveB) % fieldPrime

/-- The `n` low bytes of a number, the highest first. -/
def bigEndian (n a : Nat) : List UInt8 := (leBytes n a).reverse

/-- The alphabet of base64url. -/
def urlTable : List UInt8 :=
  "ABCDEFGHIJKLMNOPQRSTUVWXYZabcdefghijklmnopqrstuvwxyz0123456789-_".toList.map
    fun c => UInt8.ofNat c.toNat

def urlLetter (n : UInt8) : UInt8 := urlTable.getD n.toNat 0

/-- base64url without padding. -/
def urlEncode : List UInt8 → List UInt8
  | [] => []
  | [i0] => [urlLetter (n0 i0), urlLetter (n1 i0 0)]
  | [i0, i1] => [urlLetter (n0 i0), urlLetter (n1 i0 i1), urlLetter (n2 i1 0)]
  | i0 :: i1 :: i2 :: input =>
    urlLetter (n0 i0) :: urlLetter (n1 i0 i1) :: urlLetter (n2 i1 i2) :: urlLetter (n3 i2) ::
      urlEncode input

section Spec
variable {Key Point : Type} (ssl : OpenSsl Key Point)

/-- What the manual of OpenSSL says: numbers have no leading zero bytes, but for those that fill up
what `BN_bn2binpad` writes. -/
structure Documented : Prop where
  orderBits : ssl.orderBits = 256
  doSign : ∀ key a sig, ssl.doSign key a = some sig →
    ∃ r s, sig = (some r, some s) ∧ r < 2 ^ 256 ∧ s < 2 ^ 256
  newNumbers : ssl.newNumbers = true
  numBytes : ∀ a n, ssl.numBytes a ≤ n ↔ a < 256 ^ n
  bn2bin : ∀ a, ssl.bn2bin a = bigEndian (ssl.numBytes a) a
  bn2binpad : ∀ a n, ssl.bn2binpad a n =
    if ssl.numBytes a ≤ n then some (bigEndian n a) else none

def HasPublicKey (key : Key) (q : P256Point) : Prop :=
  ∃ point, ssl.publicKey key = some point ∧ ssl.affineCoordinates point = some (q.x, q.y)

/-- The coordinates are 32 bytes each, as are the numbers of a signature. -/
structure FixedWidth (key : Key) (q : P256Point) : Prop where
  publicKey : EcdsaPublicKey.new ssl key =
    .ok ⟨urlEncode (bigEndian 32 q.x), urlEncode (bigEndian 32 q.y)⟩
  sign : ∀ a r s, ssl.doSign key a = some (some r, some s) →
    sign ssl key a = .ok (bigEndian 32 r ++ bigEndian 32 s)

end Spec

/-! ## The alphabet -/

theorem urlLetter_table : ∀ n < 64,
    base64tobase64url (table.getD n 0) = urlTable.getD n 0 := by
  decide +kernel

theorem base64tobase64url_letter {n : UInt8} (h : IsSextet n) :
    base64tobase64url (letter n) = urlLetter n :=
  urlLetter_table n.toNat h.toNat_lt

theorem map_encode (input : List UInt8) :
    (encode false input).map base64tobase64url = urlEncode input := by
  induction input using encode.induct with
  | case1 => rfl
  | case2 i0 =>
    obtain ⟨h0, h1, -⟩ := isSextet i0 0 0
    simp only [encode, pad, urlEncode, List.map_cons, base64tobase64url_letter h0,
      base64tobase64url_letter h1]
    rfl
  | case3 i0 i1 =>
    obtain ⟨h0, h1, h2, -⟩ := isSextet i0 i1 0
    simp only [encode, pad, urlEncode, List.map_cons, base64tobase64url_letter h0,
      base64tobase64url_letter h1, base64tobase64url_letter h2]
    rfl
  | case4 i0 i1 i2 input ih =>
    obtain ⟨h0, h1, h2, h3⟩ := isSextet i0 i1 i2
    simp only [encode, urlEncode, List.map_cons, base64tobase64url_letter h0,
      base64tobase64url_letter h1, base64tobase64url_letter h2, base64tobase64url_letter h3, ih]

/-- Texts of different numbers of bytes have different lengths. -/
theorem length_eq_of_urlEncode {s t : List UInt8} (h : urlEncode s = urlEncode t) :
    s.length = t.length := by
  have hlength : outputLength false s.length = outputLength false t.length := by
    rw [← length_encode, ← length_encode, ← List.length_map (f := base64tobase64url), map_encode, h,
      ← map_encode, List.length_map]
  simp only [outputLength, Bool.false_eq_true, if_false] at hlength
  split at hlength <;> split at hlength <;> omega

/-! ## The numbers -/

@[simp] theorem length_bigEndian (n a : Nat) : (bigEndian n a).length = n := by
  rw [bigEndian, List.length_reverse, leBytes_length]

section Numbers
variable {Key Point : Type} {ssl : OpenSsl Key Point}

theorem Documented.coordinate_eq (hdoc : Documented ssl) (a : Nat) :
    coordinate ssl a = .ok (urlEncode (bigEndian (ssl.numBytes a) a)) := by
  have hbuf : FillBuffer.overwrite (List.replicate (ssl.numBytes a) 95) 0
      (bigEndian (ssl.numBytes a) a) = bigEndian (ssl.numBytes a) a := by
    simp [FillBuffer.overwrite]
  rw [coordinate, hdoc.bn2bin, length_bigEndian, hbuf, map_encode]
  exact if_neg (not_not.mpr rfl)

theorem Documented.numBytes_eq_iff (hdoc : Documented ssl) {a : Nat} (ha : a < 2 ^ 256) :
    ssl.numBytes a = 32 ↔ 2 ^ 248 ≤ a := by
  have hle := (hdoc.numBytes a 32).mpr ha
  have hlt : ¬ ssl.numBytes a ≤ 31 ↔ ¬ a < 2 ^ 248 := not_congr (hdoc.numBytes a 31)
  omega

theorem Documented.exportPadded_eq (hdoc : Documented ssl) {a : Nat} (ha : a < 2 ^ 256)
    (what : String) (pos : Nat) (buf : List UInt8) :
    exportPadded ssl what (some a) 32 pos buf =
      .ok (FillBuffer.overwrite buf pos (bigEndian 32 a)) := by
  have hpad : ssl.bn2binpad a 32 = some (bigEndian 32 a) := by
    rw [hdoc.bn2binpad, if_pos ((hdoc.numBytes a 32).mpr ha)]
  rw [exportPadded, Option.bind_some, hpad]
  exact if_neg (not_not.mpr (length_bigEndian 32 a))

theorem Documented.sign_eq (hdoc : Documented ssl) {key : Key} {a : List UInt8} {r s : Nat}
    (h : ssl.doSign key a = some (some r, some s)) :
    sign ssl key a = .ok (bigEndian 32 r ++ bigEndian 32 s) := by
  obtain ⟨r', s', hsig, hr, hs⟩ := hdoc.doSign key a _ h
  obtain ⟨rfl, rfl⟩ : r = r' ∧ s = s' := by simpa using hsig
  have hn : (ssl.orderBits + 7) / 8 = 32 := by rw [hdoc.orderBits]
  have hbuf : FillBuffer.overwrite (FillBuffer.overwrite (List.replicate 64 0) 0 (bigEndian 32 r)) 32
      (bigEndian 32 s) = bigEndian 32 r ++ bigEndian 32 s := by
    simp [FillBuffer.overwrite]
  simp only [sign, h, hn, bind, Except.bind, hdoc.exportPadded_eq hr, hdoc.exportPadded_eq hs]
  exact congrArg Except.ok hbuf

theorem Documented.new_eq (hdoc : Documented ssl) {key : Key} {q : P256Point}
    (hkey : HasPublicKey ssl key q) : EcdsaPublicKey.new ssl key =
      .ok ⟨urlEncode (bigEndian (ssl.numBytes q.x) q.x),
        urlEncode (bigEndian (ssl.numBytes q.y) q.y)⟩ := by
  obtain ⟨point, hpoint, hcoordinates⟩ := hkey
  simp only [EcdsaPublicKey.new, hpoint, hcoordinates, hdoc.newNumbers, bind, Except.bind,
    hdoc.coordinate_eq]
  rfl

theorem urlEncode_bigEndian_iff {a m n : Nat} :
    urlEncode (bigEndian m a) = urlEncode (bigEndian n a) ↔ m = n := by
  refine ⟨fun h => ?_, fun h => h ▸ rfl⟩
  have hlength := length_eq_of_urlEncode h
  rwa [length_bigEndian, length_bigEndian] at hlength

end Numbers

theorem fieldPrime_lt : fieldPrime < 2 ^ 256 := by decide

/-- The generator of the group, which is the public key of the private key 1. -/
def generator : P256Point where
  x := 0x6b17d1f2e12c4247f8bce6e563a440f277037d812deb33a0f4a13945d898c296
  y := 0x4fe342e2fe1a7f9b8ee7eb4a7c0f9e162bce33576b315ececbb6406837bf51f5
  x_lt := by decide
  y_lt := by decide
  onCurve := by decide

def shortPoint : P256Point where
  x := 5
  y := 0x459243b9aa581806fe913bce99817ade11ca503c64d9a3c533415c083248fbcc
  x_lt := by decide
  y_lt := by decide
  onCurve := by decide

/-- OpenSSL with public keys for keys. With the private key 1 and the nonce 1 the signature of no
bytes is the generator's `x`, twice. -/
def sampleSsl : OpenSsl P256Point P256Point where
  orderBits := 256
  doSign key a :=
    if key.x = generator.x ∧ a = [] then some (some generator.x, some generator.x) else none
  publicKey key := some key
  newNumbers := true
  affineCoordinates point := some (point.x, point.y)
  numBytes a := (a.size + 7) / 8
  bn2bin a := bigEndian ((a.size + 7) / 8) a
  bn2binpad a n := if (a.size + 7) / 8 ≤ n then some (bigEndian n a) else none

theorem documented_sampleSsl : Documented sampleSsl where
  orderBits := rfl
  doSign key a sig h := by
    obtain ⟨-, hsig⟩ := Option.ite_none_right_eq_some.mp h
    exact ⟨_, _, (Option.some.inj hsig).symm, by decide, by decide⟩
  newNumbers := rfl
  numBytes a n := by
    have hsize : a.size ≤ 8 * n ↔ a < 2 ^ (8 * n) := Nat.size_le
    rw [Nat.pow_mul] at hsize
    rw [show 256 = 2 ^ 8 from rfl, ← hsize]
    change (a.size + 7) / 8 ≤ n ↔ _
    omega
  bn2bin _ := rfl
  bn2binpad _ _ := rfl

/-- The coordinates have a fixed width if neither begins with a zero byte. -/
theorem fixedWidth_iff {Key Point : Type} (ssl : OpenSsl Key Point) (hdoc : Documented ssl)
    (key : Key) (q : P256Point) (hkey : HasPublicKey ssl key q) :
    FixedWidth ssl key q ↔ 2 ^ 248 ≤ q.x ∧ 2 ^ 248 ≤ q.y := by
  have hx := hdoc.numBytes_eq_iff (q.x_lt.trans fieldPrime_lt)
  have hy := hdoc.numBytes_eq_iff (q.y_lt.trans fieldPrime_lt)
  have hnew := hdoc.new_eq hkey
  rw [← hx, ← hy]
  constructor
  · intro h
    have heq := Except.ok.inj (hnew.symm.trans h.publicKey)
    rw [EcdsaPublicKey.mk.injEq, urlEncode_bigEndian_iff, urlEncode_bigEndian_iff] at heq
    exact heq
  · rintro ⟨hx, hy⟩
    rw [hx, hy] at hnew
    exact ⟨hnew, fun a r s h => hdoc.sign_eq h⟩

theorem fixedWidth_generator : FixedWidth sampleSsl generator generator :=
  (fixedWidth_iff sampleSsl documented_sampleSsl generator generator ⟨generator, rfl, rfl⟩).mpr
    ⟨by decide, by decide⟩

/-- The coordinate 5 is the text `BQ`. -/
theorem fixedWidth_shortPoint : HasPublicKey sampleSsl shortPoint shortPoint ∧
    coordinate sampleSsl shortPoint.x = .ok [66, 81] ∧
    ¬ FixedWidth sampleSsl shortPoint shortPoint := by
  have hkey : HasPublicKey sampleSsl shortPoint shortPoint := ⟨shortPoint, rfl, rfl⟩
  refine ⟨hkey, by decide, fun h => ?_⟩
  have heq := Except.ok.inj ((documented_sampleSsl.new_eq hkey).symm.trans h.publicKey)
  rw [EcdsaPublicKey.mk.injEq, urlEncode_bigEndian_iff] at heq
  exact absurd heq.1 (by decide)

end McpeLauncher.Ecdsa
