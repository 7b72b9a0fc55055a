import BlorgFS.Http.ClientSafety

/-! What the client sends over TLS: nothing but its requests, sealed for the pinned peer one after the
other, each under a nonce of its own. -/

namespace BlorgFS.Tls

open Lib

theorem zipWith_xor_inj {l a b : List UInt8} (ha : l.length = a.length) (hb : l.length = b.length)
    (h : List.zipWith (fun x y => x ^^^ y) l a = List.zipWith (fun x y => x ^^^ y) l b) : a = b := by
  induction l generalizing a b with
  | nil => rw [List.length_eq_zero_iff.1 ha.symm, List.length_eq_zero_iff.1 hb.symm]
  | cons x l ih =>
    obtain ⟨y, a, rfl⟩ := List.exists_cons_of_length_eq_add_one ha.symm
    obtain ⟨z, b, rfl⟩ := List.exists_cons_of_length_eq_add_one hb.symm
    obtain ⟨hhead, htail⟩ := List.cons.inj h
    rw [ih (Nat.succ.inj ha) (Nat.succ.inj hb) htail, (UInt8.xor_right_inj x).1 hhead]

/-- Under one static part no two sequence numbers have one nonce. -/
theorem buildNonce_inj {iv : List UInt8} {m n : ℕ} (hiv : iv.length = Handshake.ivLen) (hm : m < 2 ^ 64) (hn : n < 2 ^ 64)
    (h : buildNonce iv m = buildNonce iv n) : m = n := by
  have hlen : (iv.drop 4).length = 8 := by
    rw [List.length_drop, hiv]
    rfl
  have hxor := List.append_cancel_left h
  have hbe := zipWith_xor_inj (by rw [hlen, length_be]) (by rw [hlen, length_be]) hxor
  rw [← ofBe_be_of_lt (n := 8) hm, ← ofBe_be_of_lt (n := 8) hn, hbe]

theorem be_mod (n v : ℕ) : be n (v % 256 ^ n) = be n v := by
  have h := be_ofBe (be n v)
  rwa [length_be, ofBe_be] at h

theorem buildNonce_mod (iv : List UInt8) (n : ℕ) : buildNonce iv (n % 2 ^ 64) = buildNonce iv n := by
  have h : be 8 (n % 2 ^ 64) = be 8 n := be_mod 8 n
  rw [buildNonce, buildNonce, h]

end BlorgFS.Tls

namespace BlorgFS.Http

open Lib Tls

/-! ### What is sealed -/

/-- Decryption undoes encryption, which adds a tag. -/
def Inverse (P : Handshake.Primitives) : Prop := ∀ key nonce header plaintext ciphertext, P.aeadEncrypt key nonce header plaintext = .ok ciphertext →
  ciphertext.length = plaintext.length + tagLength ∧
    (P.aeadDecrypt key nonce header (ciphertext.take plaintext.length) (ciphertext.drop plaintext.length)).toOption.map Subtype.val = some plaintext

/-- What the peer decrypts with: what is written here is read there. -/
def peer (P : Handshake.Primitives) (keys : Handshake.Keys) : Aead := Call.keyed P ⟨keys.readKey, keys.readIv, keys.writeKey, keys.writeIv⟩

section Sealed

variable {P : Handshake.Primitives} {keys : Handshake.Keys} {seq : ℕ} {request record : Bytes}

theorem declaredLength_sealedHeader (hle : request.length + 1 + tagLength ≤ ciphertextMax) (rest : Bytes) :
    declaredLength (sealedHeader request ++ rest) = request.length + 1 + tagLength := by
  have hmax : ciphertextMax = 16401 := rfl
  have hheader : 5 ≤ (sealedHeader request).length := Nat.le_refl 5
  rw [declaredLength_append hheader]
  show (UInt8.ofNat ((request.length + 1 + tagLength) / 256)).toNat * 256 + (UInt8.ofNat (request.length + 1 + tagLength)).toNat = _
  rw [UInt8.toNat_ofNat', UInt8.toNat_ofNat']
  omega

/-- A sealed request is one record, and the peer opens it to the request. -/
theorem Sealed.opens (h : Sealed P keys seq request record) (hinverse : Inverse P) : Opens (peer P keys) seq record (request ++ [0x17]) := by
  obtain ⟨ciphertext, hencrypt, rfl, hle⟩ := h
  obtain ⟨hlen, hdecrypt⟩ := hinverse _ _ _ _ _ hencrypt
  rw [List.length_append, List.length_singleton] at hlen hdecrypt
  have hheader : (sealedHeader request).length = 5 := rfl
  have hdeclared := declaredLength_sealedHeader hle ciphertext
  refine ⟨?_, rfl, ?_, ?_⟩
  · rw [isRecord_iff, hdeclared, List.length_append, hheader, hlen]
    omega
  · rw [hdeclared]
    exact hle
  · have hdrop : (sealedHeader request ++ ciphertext).drop (5 + (request.length + 1)) = ciphertext.drop (request.length + 1) := by
      rw [← List.drop_drop, List.drop_left' hheader]
    rw [hdeclared, Nat.add_sub_cancel, List.take_left' hheader, List.drop_left' hheader, hdrop]
    exact hdecrypt

/-- Sealed one after the other, requests are a stream of records. -/
theorem framed_sealed (hinverse : Inverse P) (sealed : List (Bytes × Bytes)) (first : ℕ)
    (h : ∀ i s, sealed[i]? = some s → Sealed P keys ((first + i) % 2 ^ 64) s.1 s.2) :
    Framed (peer P keys) first (sealed.map Prod.snd) (sealed.flatMap Prod.fst) := by
  induction sealed generalizing first with
  | nil => exact .nil
  | cons s sealed ih =>
    have hs : Sealed P keys first s.1 s.2 := by
      obtain ⟨ciphertext, hencrypt, hrest⟩ := h 0 s rfl
      rw [Nat.add_zero, buildNonce_mod] at hencrypt
      exact ⟨ciphertext, hencrypt, hrest⟩
    have hrest := ih (first + 1) fun i s' hs' => by
      have := h (i + 1) s' (by rwa [List.getElem?_cons_succ])
      rwa [show first + 1 + i = first + (i + 1) by omega]
    have hopens : Opens (peer P keys) first s.2 (s.1 ++ 0x17 :: List.replicate 0 0) := hs.opens hinverse
    exact .content hopens hrest

end Sealed

namespace Client

variable {tls : Bool} {P : Handshake.Primitives} {pin : Option Digest} {parse : Bytes → Parsed} {size : SystemSize} {x x' : Client}

/-! ### What is sent over TLS -/

namespace Sample

/-- What the client encrypts: its Finished, and the request under the first number. -/
def sealing : List ((Bytes × Bytes × Bytes × Bytes) × Bytes) :=
  [((Handshake.Sample.clientHsKey.1.take Handshake.keyLen, Handshake.Sample.clientHsIv.1.take Handshake.ivLen, be 5 0x1703030035,
      [0x14, 0x00, 0x00, 0x20] ++ Handshake.Sample.clientMac.1 ++ [0x16]), Handshake.Sample.clientSealed),
    ((Handshake.Sample.clientAppKey.1.take Handshake.keyLen, Handshake.Sample.clientAppIv.1.take Handshake.ivLen, be 5 0x1703030014, request ++ [0x17]),
      be 20 0x206929f3ca5b60c3f70ae13460fbdd8f1ee40c74)]

/-- What opens what the client encrypts. -/
def opening : List ((Bytes × Bytes × Bytes × Bytes) × Bytes) := sealing.map fun s => ((s.1.1, s.1.2.1, s.1.2.2.1, s.2), s.1.2.2.2)

/-- The platform's functions at the arguments of the handshake and of the request. -/
def platform : Handshake.Primitives :=
  { Handshake.Sample.platform with
    aeadEncrypt := fun key nonce header plaintext => Handshake.Sample.answer sealing (key, nonce, header, plaintext)
    aeadDecrypt := fun key nonce header ciphertext tag =>
      match opening.lookup (key, nonce, header, ciphertext ++ tag) with
      | some plaintext => if h : plaintext.length = ciphertext.length then .ok ⟨plaintext, h⟩ else .error .invalidParameter
      | none => Handshake.Sample.platform.aeadDecrypt key nonce header ciphertext tag }

theorem mem_of_answer {α β : Type} [DecidableEq α] {table : List (α × β)} {x : α} {y : β} (h : Handshake.Sample.answer table x = .ok y) : (x, y) ∈ table := by
  unfold Handshake.Sample.answer at h
  split at h
  · cases h
  · rename_i hlookup
    obtain rfl := Except.ok.inj h
    obtain ⟨l₁, l₂, rfl, _⟩ := List.lookup_eq_some_iff.1 hlookup
    exact List.mem_append_right l₁ List.mem_cons_self

theorem platform_inverse : Inverse platform := by
  intro key nonce header plaintext ciphertext h
  have hall : ∀ s ∈ sealing, s.2.length = s.1.2.2.2.length + tagLength ∧
      (platform.aeadDecrypt s.1.1 s.1.2.1 s.1.2.2.1 (s.2.take s.1.2.2.2.length) (s.2.drop s.1.2.2.2.length)).toOption.map Subtype.val = some s.1.2.2.2 := by
    decide +kernel
  exact hall _ (mem_of_answer h)

/-- What the handshake does, from the ClientHello to the Finished. -/
def shaken : List Handshake.Act :=
  [.sentHello (.ok ⟨⟩), .issue Handshake.Sample.granted] ++ Handshake.Sample.arrivals [be 5 0x160303007b, Handshake.Sample.serverHello] ++
    [.issue Handshake.Sample.granted] ++ Handshake.Sample.arrivals Handshake.Sample.exact.pieces ++ [.sentFinished (.ok ⟨⟩)]

/-- A read makes a connection, whose handshake is queued, and is sent. -/
def securedVisit : List ClientAct :=
  asks 0 ++ [.call 0 (.connected (.ok zeros) .dispatch), .call 0 (.kick granted), .call 0 (.worker granted)] ++
    shaken.map (fun act => .call 0 (.handshake act .dispatch)) ++ [.call 0 (.kick granted)]

theorem securedVisit_ends : (run (next threeBytes platform (some Handshake.Sample.pin) .small true) initial securedVisit).map
    (fun x => x.calls.map fun c => (c.sent, c.socket.map fun conn => (conn.socket.tls, conn.sealed.length))) =
      some [([(true, be 25 0x1703030014206929f3ca5b60c3f70ae13460fbdd8f1ee40c74)], some (true, 1))] := by decide +kernel

/-- The request has gone out over TLS. -/
structure Secured (x : Client) : Prop where
  reachable : (system threeBytes platform (some Handshake.Sample.pin) .small true).Reachable x
  sent : ∃ c ∈ x.calls, c.sent = [(true, be 25 0x1703030014206929f3ca5b60c3f70ae13460fbdd8f1ee40c74)] ∧
    ∃ conn, c.socket = some conn ∧ conn.socket.tls = true ∧ conn.sealed.length = 1

theorem secured : ∃ x, Secured x := by
  obtain ⟨x, hrun, hend⟩ := Option.map_eq_some_iff.1 securedVisit_ends
  have hmem : (([(true, be 25 0x1703030014206929f3ca5b60c3f70ae13460fbdd8f1ee40c74)], some (true, 1)) : List (Bool × Bytes) × Option (Bool × ℕ)) ∈
      x.calls.map fun c => (c.sent, c.socket.map fun conn => (conn.socket.tls, conn.sealed.length)) := by
    rw [hend]
    exact .head _
  obtain ⟨c, hc, heq⟩ := List.mem_map.1 hmem
  obtain ⟨hsent, hconn⟩ := Prod.mk.inj heq
  obtain ⟨conn, hsocket, hconn⟩ := Option.map_eq_some_iff.1 hconn
  exact ⟨x, reached hrun, c, hc, hsent, conn, hsocket, (Prod.mk.inj hconn).1, (Prod.mk.inj hconn).2⟩

end Sample

/-- Over TLS nothing goes out but the request, sealed under keys from a handshake with the pinned peer; so
when no peer is pinned nothing goes out. -/
theorem requests_sealed (hparse : ParsesInside parse) (h : (system parse P pin size true).Reachable x) :
    (∀ c ∈ x.calls, ∀ s ∈ c.sent, s.1 = true ∧ ∃ keys seq, Trusted P pin keys ∧ Sealed P keys seq c.requestBuffer s.2) ∧
    (pin = none → ∀ c ∈ x.calls, c.sent = []) := by
  have hi := reachable_inv hparse h
  have hsealed : ∀ c ∈ x.calls, ∀ s ∈ c.sent, s.1 = true ∧ ∃ keys seq, Trusted P pin keys ∧ Sealed P keys seq c.requestBuffer s.2 := by
    intro c hc s hs
    obtain ⟨hsent, hsecured⟩ := (hi.calls c hc).sent s hs
    exact ⟨hsecured rfl, hsent.secured (hsecured rfl)⟩
  refine ⟨hsealed, ?_⟩
  rintro rfl c hc
  rw [List.eq_nil_iff_forall_not_mem]
  intro s hs
  obtain ⟨_, keys, _, ⟨_, _, _, _, hauthentic⟩, _⟩ := hsealed c hc s hs
  obtain ⟨_, _, _, _, ⟨_, _, _, hpin, _⟩, _⟩ := hauthentic.shown
  cases hpin

theorem requests_sealed_secured : ∃ x, Sample.Secured x ∧ ∃ c ∈ x.calls, ∃ s ∈ c.sent, ∃ keys seq,
    Trusted Sample.platform (some Handshake.Sample.pin) keys ∧ Sealed Sample.platform keys seq c.requestBuffer s.2 := by
  obtain ⟨x, h⟩ := Sample.secured
  obtain ⟨c, hc, hsent, _⟩ := h.sent
  have hmem : (true, be 25 0x1703030014206929f3ca5b60c3f70ae13460fbdd8f1ee40c74) ∈ c.sent := by
    rw [hsent]
    exact .head _
  exact ⟨x, h, c, hc, _, hmem, ((requests_sealed Sample.threeBytes_inside h.reachable).1 c hc _ hmem).2⟩

/-- Where encryption and decryption are inverse, what goes out on a connection over TLS is a stream of
records that the peer opens one after the other to the requests, each sealed under a number and a nonce of its
own and sent at most once. -/
theorem requests_in_order (hparse : ParsesInside parse) (hinverse : Inverse P) (h : (system parse P pin size tls).Reachable x) :
    ∀ conn, x.Has conn → conn.socket.tls = true →
      Framed (peer P conn.keys) 0 (conn.sealed.map Prod.snd) (conn.sealed.flatMap Prod.fst) ∧ conn.requests.Sublist conn.sealed ∧
      (∀ i s, conn.sealed[i]? = some s → Sealed P conn.keys i s.1 s.2) ∧
      (conn.sealed.length ≤ 2 ^ 64 → ((List.range conn.sealed.length).map (buildNonce conn.keys.writeIv)).Nodup) := by
  intro conn hhas htls
  have hsound := (reachable_inv hparse h).sound conn hhas
  refine ⟨framed_sealed hinverse conn.sealed 0 fun i s hs => ?_, hsound.sent htls, fun i s hs => ?_, fun hfew => ?_⟩
  · rw [Nat.zero_add]
    exact hsound.sealed i s hs
  · obtain ⟨ciphertext, hencrypt, hrest⟩ := hsound.sealed i s hs
    rw [buildNonce_mod] at hencrypt
    exact ⟨ciphertext, hencrypt, hrest⟩
  · apply List.Nodup.map_on _ List.nodup_range
    intro m hm n hn hnonce
    rw [List.mem_range] at hm hn
    exact buildNonce_inj (hsound.writeIv htls) (by omega) (by omega) hnonce

theorem requests_in_order_secured : ∃ x, Sample.Secured x ∧ ∃ conn, x.Has conn ∧ conn.sealed.length = 1 ∧
    Framed (peer Sample.platform conn.keys) 0 (conn.sealed.map Prod.snd) (conn.sealed.flatMap Prod.fst) := by
  obtain ⟨x, h⟩ := Sample.secured
  obtain ⟨c, hc, _, conn, hsocket, htls, hone⟩ := h.sent
  have hhas : x.Has conn := .call hc hsocket
  exact ⟨x, h, conn, hhas, hone, (requests_in_order Sample.threeBytes_inside Sample.platform_inverse h.reachable conn hhas htls).1⟩

end Client

end BlorgFS.Http
