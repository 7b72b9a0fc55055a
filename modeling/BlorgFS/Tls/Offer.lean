import BlorgFS.Lib.Presentation
import BlorgFS.Tls.ServerHello

/-! The ClientHello as TLS 1.3 writes it: vectors in vectors, the extensions as items of one of
them. A message is read back as what it offers, and one that keeps the bounds of its vectors is
read back as what was written. -/

namespace BlorgFS.Tls

open Lib

/-! ### The message -/

/-- `TLS_EXT_SERVER_NAME`. -/
def extServerName : ℕ := 0x0000

/-- `TLS_EXT_SUPPORTED_GROUPS`. -/
def extSupportedGroups : ℕ := 0x000A

/-- `TLS_EXT_SIGNATURE_ALGORITHMS`. -/
def extSignatureAlgorithms : ℕ := 0x000D

/-- What one extension offers. Names have a kind and shares a group. -/
inductive Offered where
  | serverName (names : List (ℕ × List UInt8))
  | supportedGroups (groups : List ℕ)
  | signatureAlgorithms (algorithms : List ℕ)
  | supportedVersions (versions : List ℕ)
  | keyShare (shares : List (ℕ × List UInt8))
  | other (type : ℕ) (content : List UInt8)
  deriving DecidableEq, Repr

/-- What a ClientHello says. -/
structure Offer where
  random : List UInt8
  sessionId : List UInt8
  cipherSuites : List ℕ
  extensions : List Offered
  deriving DecidableEq, Repr

/-- A name or a share, its kind or group in `n` bytes. -/
def entry (n : ℕ) (e : ℕ × List UInt8) : List UInt8 := be n e.1 ++ vector 2 e.2

namespace Offered

def type : Offered → ℕ
  | serverName _ => extServerName
  | supportedGroups _ => extSupportedGroups
  | signatureAlgorithms _ => extSignatureAlgorithms
  | supportedVersions _ => extSupportedVersions
  | keyShare _ => extKeyShare
  | other type _ => type

def content : Offered → List UInt8
  | serverName names => vector 2 (names.flatMap (entry 1))
  | supportedGroups groups => vector 2 (groups.flatMap (be 2))
  | signatureAlgorithms algorithms => vector 2 (algorithms.flatMap (be 2))
  | supportedVersions versions => vector 1 (versions.flatMap (be 2))
  | keyShare shares => vector 2 (shares.flatMap (entry 2))
  | other _ content => content

def encoded (e : Offered) : List UInt8 := be 2 e.type ++ vector 2 e.content

end Offered

namespace Offer

def body (o : Offer) : List UInt8 :=
  be 2 0x0303 ++ (o.random ++ (vector 1 o.sessionId ++ (vector 2 (o.cipherSuites.flatMap (be 2)) ++
    (vector 1 [0] ++ vector 2 (o.extensions.flatMap Offered.encoded)))))

/-- The message with its type and its length. -/
def encoded (o : Offer) : List UInt8 := be 1 1 ++ vector 3 o.body

end Offer

/-! ### The reader -/

/-- What is read, when nothing is left. -/
def whole {α : Type} : Option (α × List UInt8) → Option α
  | some (a, []) => some a
  | _ => none

def readNumbers (n least most : ℕ) (content : List UInt8) : Option (List ℕ) := do
  let l ← whole (takeVector n least most content)
  items (takeNumber 2) l

def takeEntry (n : ℕ) (l : List UInt8) : Option ((ℕ × List UInt8) × List UInt8) := do
  let (kind, l) ← takeNumber n l
  let (value, l) ← takeVector 2 1 65535 l
  some ((kind, value), l)

def readEntries (n least : ℕ) (content : List UInt8) : Option (List (ℕ × List UInt8)) := do
  let l ← whole (takeVector 2 least 65535 content)
  items (takeEntry n) l

def readContent (type : ℕ) (content : List UInt8) : Option Offered :=
  if type = extServerName then (readEntries 1 1 content).map .serverName
  else if type = extSupportedGroups then (readNumbers 2 2 65535 content).map .supportedGroups
  else if type = extSignatureAlgorithms then (readNumbers 2 2 65534 content).map .signatureAlgorithms
  else if type = extSupportedVersions then (readNumbers 1 2 254 content).map .supportedVersions
  else if type = extKeyShare then (readEntries 2 0 content).map .keyShare
  else some (.other type content)

def takeOffered (l : List UInt8) : Option (Offered × List UInt8) := do
  let (type, l) ← takeNumber 2 l
  let (content, l) ← takeVector 2 0 65535 l
  let offered ← readContent type content
  some (offered, l)

/-- A ClientHello has the version of TLS 1.2, compresses nothing and names no extension twice. -/
def readBody (l : List UInt8) : Option Offer := do
  let (version, l) ← takeNumber 2 l
  let (random, l) ← takeBytes randomLen l
  let (sessionId, l) ← takeVector 1 0 32 l
  let (suites, l) ← takeVector 2 2 65534 l
  let cipherSuites ← items (takeNumber 2) suites
  let (compression, l) ← takeVector 1 1 255 l
  let l ← whole (takeVector 2 8 65535 l)
  let extensions ← items takeOffered l
  if version = 0x0303 ∧ compression = [0] ∧ (extensions.map Offered.type).Nodup then some ⟨random, sessionId, cipherSuites, extensions⟩ else none

/-- The reader of a whole message. -/
def readOffer (l : List UInt8) : Option Offer := do
  let (kind, l) ← takeNumber 1 l
  let body ← whole (takeVector 3 0 (2 ^ 24 - 1) l)
  if kind = 1 then readBody body else none

/-! ### What is read back -/

/-- Numbers that a vector of such bounds holds. -/
structure Numbers (least most : ℕ) (vs : List ℕ) : Prop where
  lt : ∀ v ∈ vs, v < 65536
  le : least ≤ (vs.flatMap (be 2)).length
  ge : (vs.flatMap (be 2)).length ≤ most

/-- Entries that a vector holds. -/
structure Entries (n least : ℕ) (es : List (ℕ × List UInt8)) : Prop where
  lt : ∀ e ∈ es, e.1 < 256 ^ n
  value : ∀ e ∈ es, 1 ≤ e.2.length ∧ e.2.length ≤ 65535
  le : least ≤ (es.flatMap (entry n)).length
  ge : (es.flatMap (entry n)).length ≤ 65535

/-- An extension that keeps the bounds of its vectors. -/
def Offered.Fits : Offered → Prop
  | serverName names => Entries 1 1 names
  | supportedGroups groups => Numbers 2 65535 groups
  | signatureAlgorithms algorithms => Numbers 2 65534 algorithms
  | supportedVersions versions => Numbers 2 254 versions
  | keyShare shares => Entries 2 0 shares
  | other type _ => type < 65536 ∧ type ∉ [extServerName, extSupportedGroups, extSignatureAlgorithms, extSupportedVersions, extKeyShare]

/-- An offer that keeps the bounds of its vectors. -/
structure Offer.Fits (o : Offer) : Prop where
  random : o.random.length = randomLen
  sessionId : o.sessionId.length ≤ 32
  cipherSuites : Numbers 2 65534 o.cipherSuites
  offered : ∀ e ∈ o.extensions, e.Fits ∧ e.content.length ≤ 65535
  le : 8 ≤ (o.extensions.flatMap Offered.encoded).length
  ge : (o.extensions.flatMap Offered.encoded).length ≤ 65535
  nodup : (o.extensions.map Offered.type).Nodup

section RoundTrip

variable {n least most : ℕ}

theorem whole_vector {bytes : List UInt8} (hleast : least ≤ bytes.length) (hmost : bytes.length ≤ most) (hn : most < 256 ^ n) :
    whole (takeVector n least most (vector n bytes)) = some bytes := by
  have htake := takeVector_append hleast hmost (Nat.lt_of_le_of_lt hmost hn) []
  rw [List.append_nil] at htake
  rw [htake]
  rfl

theorem items_numbers {vs : List ℕ} (h : ∀ v ∈ vs, v < 65536) : items (takeNumber 2) (vs.flatMap (be 2)) = some vs := by
  apply items_flatMap
  · intro v hv rest
    exact takeNumber_append (h v hv) rest
  · intro v hv
    exact List.ne_nil_of_length_pos (by rw [length_be]; exact Nat.two_pos)

theorem readNumbers_vector {vs : List ℕ} (h : Numbers least most vs) (hn : most < 256 ^ n) :
    readNumbers n least most (vector n (vs.flatMap (be 2))) = some vs := by
  rw [readNumbers, whole_vector h.le h.ge hn]
  exact items_numbers h.lt

theorem takeEntry_append {e : ℕ × List UInt8} (hlt : e.1 < 256 ^ n) (hvalue : 1 ≤ e.2.length ∧ e.2.length ≤ 65535) (rest : List UInt8) :
    takeEntry n (entry n e ++ rest) = some (e, rest) := by
  rw [takeEntry, entry, List.append_assoc, takeNumber_append hlt]
  show (takeVector 2 1 65535 (vector 2 e.2 ++ rest)).bind (fun x => some ((e.1, x.1), x.2)) = some (e, rest)
  rw [takeVector_append hvalue.1 hvalue.2 (show e.2.length < 256 ^ 2 by omega)]
  rfl

theorem readEntries_vector {es : List (ℕ × List UInt8)} (h : Entries n least es) :
    readEntries n least (vector 2 (es.flatMap (entry n))) = some es := by
  rw [readEntries, whole_vector h.le h.ge (by decide)]
  apply items_flatMap
  · intro e he rest
    exact takeEntry_append (h.lt e he) (h.value e he) rest
  · intro e he
    exact List.ne_nil_of_length_pos (by rw [entry, List.length_append, length_vector]; omega)

/-- Each kind of extension is read back. -/
theorem readContent_content {e : Offered} (h : e.Fits) : readContent e.type e.content = some e := by
  cases e with
  | serverName names =>
    show (readEntries 1 1 (vector 2 (names.flatMap (entry 1)))).map Offered.serverName = _
    rw [readEntries_vector h, Option.map_some]
  | supportedGroups groups =>
    show (readNumbers 2 2 65535 (vector 2 (groups.flatMap (be 2)))).map Offered.supportedGroups = _
    rw [readNumbers_vector h (by decide), Option.map_some]
  | signatureAlgorithms algorithms =>
    show (readNumbers 2 2 65534 (vector 2 (algorithms.flatMap (be 2)))).map Offered.signatureAlgorithms = _
    rw [readNumbers_vector h (by decide), Option.map_some]
  | supportedVersions versions =>
    show (readNumbers 1 2 254 (vector 1 (versions.flatMap (be 2)))).map Offered.supportedVersions = _
    rw [readNumbers_vector h (by decide), Option.map_some]
  | keyShare shares =>
    show (readEntries 2 0 (vector 2 (shares.flatMap (entry 2)))).map Offered.keyShare = _
    rw [readEntries_vector h, Option.map_some]
  | other type content =>
    simp only [Offered.Fits, List.mem_cons, List.not_mem_nil, or_false, not_or] at h
    obtain ⟨-, hname, hgroups, halgorithms, hversions, hshare⟩ := h
    show readContent type content = _
    rw [readContent, if_neg hname, if_neg hgroups, if_neg halgorithms, if_neg hversions, if_neg hshare]

theorem type_lt {e : Offered} (h : e.Fits) : e.type < 256 ^ 2 := by
  cases e with
  | other type content => exact h.1
  | _ => simp only [Offered.type]; decide

theorem takeOffered_append {e : Offered} (h : e.Fits) (hcontent : e.content.length ≤ 65535) (rest : List UInt8) :
    takeOffered (e.encoded ++ rest) = some (e, rest) := by
  rw [takeOffered, Offered.encoded, List.append_assoc, takeNumber_append (type_lt h)]
  show (takeVector 2 0 65535 (vector 2 e.content ++ rest)).bind (fun x => (readContent e.type x.1).bind fun offered => some (offered, x.2)) = some (e, rest)
  rw [takeVector_append (Nat.zero_le _) hcontent (show e.content.length < 256 ^ 2 by omega)]
  show (readContent e.type e.content).bind (fun offered => some (offered, rest)) = some (e, rest)
  rw [readContent_content h]
  rfl

theorem items_offered {es : List Offered} (h : ∀ e ∈ es, e.Fits ∧ e.content.length ≤ 65535) : items takeOffered (es.flatMap Offered.encoded) = some es := by
  apply items_flatMap
  · intro e he rest
    exact takeOffered_append (h e he).1 (h e he).2 rest
  · intro e he
    exact List.ne_nil_of_length_pos (by rw [Offered.encoded, List.length_append, length_be]; omega)

variable {o : Offer}

theorem readBody_body (h : o.Fits) : readBody o.body = some o := by
  have hsuites := h.cipherSuites
  have hrandom := takeBytes_append o.random (vector 1 o.sessionId ++ (vector 2 (o.cipherSuites.flatMap (be 2)) ++
    (vector 1 [0] ++ vector 2 (o.extensions.flatMap Offered.encoded))))
  rw [h.random] at hrandom
  rw [readBody, Offer.body, takeNumber_append (by decide)]
  simp only [Option.bind_eq_bind, Option.bind_some]
  rw [hrandom, Option.bind_some, takeVector_append (Nat.zero_le _) h.sessionId (Nat.lt_of_le_of_lt h.sessionId (by decide)), Option.bind_some]
  dsimp only
  rw [takeVector_append hsuites.le hsuites.ge (Nat.lt_of_le_of_lt hsuites.ge (by decide)), Option.bind_some]
  dsimp only
  rw [items_numbers hsuites.lt, Option.bind_some, takeVector_append (by decide) (by decide) (by decide), Option.bind_some]
  dsimp only
  rw [whole_vector h.le h.ge (by decide), Option.bind_some, items_offered h.offered, Option.bind_some, if_pos ⟨trivial, rfl, h.nodup⟩]

theorem length_body : o.body.length =
    9 + o.random.length + o.sessionId.length + (o.cipherSuites.flatMap (be 2)).length + (o.extensions.flatMap Offered.encoded).length := by
  unfold Offer.body
  simp only [List.length_append, length_be, length_vector, List.length_singleton]
  omega

/-- An offer within the bounds is read back from its message. -/
theorem readOffer_encoded (h : o.Fits) : readOffer o.encoded = some o := by
  have hlength := length_body (o := o)
  have hrandom := h.random
  have hsession := h.sessionId
  have hsuites := h.cipherSuites.ge
  have hextensions := h.ge
  have hbody : o.body.length ≤ 2 ^ 24 - 1 := by
    unfold randomLen at hrandom
    omega
  rw [readOffer, Offer.encoded, takeNumber_append (by decide)]
  simp only [Option.bind_eq_bind, Option.bind_some]
  rw [whole_vector (Nat.zero_le _) hbody (by decide), Option.bind_some, if_pos trivial, readBody_body h]

end RoundTrip

end BlorgFS.Tls
