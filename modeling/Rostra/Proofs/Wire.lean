/-
# The wire records are canonical

Each record has exactly one encoding that its decoder accepts, and no input makes a decoder panic.

* Section 1: texts, ids and slices.
* Section 2: a byte string that is long enough is cut into the fields of a body (`cut_body`), and on the fields
  the decoder is a function that indexes nothing (`decode_layout`).  Both round trips and the absence of panics are
  read off from there.
* Section 3: the same for announcements.
* Section 4: the result.

The two directions are different statements. That what is encoded is decoded again is what a sender needs; that
nothing else is decoded is what keeps two different strings from meaning the same message, so that a message can be
recognised by its bytes. For bodies it depends on the padding being checked, for announcements on the validation
being the same on both sides.

Panics are the third part. The decoders index and convert without asking, and the length checks that come first are
what makes this safe; here this is a fact about all byte strings.
-/
import Rostra.Dm.Wire
import Rostra.Proofs.Envelope

namespace Rostra.Dm

open Rostra Outcome

/-! ## 1. Texts, ids and slices

Conversions between bytes and values, in both directions, and the slices of a string that was put together. -/

theorem fromUtf8_asBytes (t : Text) : fromUtf8 (asBytes t) = some t := by
  have h : (asBytes t).toByteArray.utf8Decode? = some t.toArray := List.utf8Decode?_utf8Encode
  rw [fromUtf8, h, Option.map_some]

/-- **No two byte strings spell one text.** -/
theorem asBytes_of_fromUtf8 {bytes : Bytes} {t : Text} (h : fromUtf8 bytes = some t) : asBytes t = bytes := by
  obtain ⟨chars, hchars, -⟩ := Option.map_eq_some_iff.mp h
  have hsome : bytes.toByteArray.utf8Decode?.isSome := by
    rw [hchars]
    rfl
  obtain ⟨m, hm⟩ := ByteArray.isSome_utf8Decode?_iff.mp hsome
  have hbytes : bytes = asBytes m := List.toByteArray_inj.mp hm
  rw [hbytes, fromUtf8_asBytes] at h
  cases h
  exact hbytes.symm

theorem textBucket_spec {length bucket : ℕ} (h : textBucket length = .ok bucket) :
    length ≤ bucket ∧ bucket ≤ 16384 := by
  have hfind := okOrInvalid_eq_ok.mp h
  have hle : length ≤ bucket := by simpa using List.find?_some hfind
  have hmem : bucket ∈ TEXT_BUCKETS := List.mem_of_find?_eq_some hfind
  simp only [TEXT_BUCKETS, List.mem_cons, List.not_mem_nil, or_false] at hmem
  omega

theorem exists_textBucket {length : ℕ} (h : length ≤ 16384) : ∃ bucket, textBucket length = .ok bucket := by
  have hsome : (TEXT_BUCKETS.find? fun bucket => decide (length ≤ bucket)).isSome := by
    rw [List.find?_isSome]
    exact ⟨16384, by decide, decide_eq_true h⟩
  obtain ⟨bucket, hbucket⟩ := Option.isSome_iff_exists.mp hsome
  exact ⟨bucket, okOrInvalid_eq_ok.mpr hbucket⟩

/-- 32 bytes, in two halves. -/
def Wide (id : RostraId) : Prop := (ofLex id).1 < 2 ^ 128 ∧ (ofLex id).2 < 2 ^ 128

@[simp] theorem idBytes_length (id : RostraId) : (idBytes id).length = 32 := by
  simp [idBytes]

theorem beNat_encode {width n : ℕ} (h : n < 256 ^ width) : beNat (BigEndian.encode width n) = n :=
  BigEndian.value_encode h

theorem encode_beNat {width : ℕ} {bytes : Bytes} (h : bytes.length = width) :
    BigEndian.encode width (beNat bytes) = bytes := by
  rw [← h]
  exact BigEndian.encode_value bytes

theorem beNat_lt {width : ℕ} {bytes : Bytes} (h : bytes.length = width) : beNat bytes < 256 ^ width := by
  rw [← h]
  exact BigEndian.value_lt bytes

theorem idFromBytes_idBytes {id : RostraId} (h : Wide id) : idFromBytes (idBytes id) = id := by
  have hhigh : (idBytes id).take 16 = BigEndian.encode 16 (ofLex id).1 :=
    List.take_left' (BigEndian.encode_length ..)
  have hlow : (idBytes id).drop 16 = BigEndian.encode 16 (ofLex id).2 :=
    List.drop_left' (BigEndian.encode_length ..)
  rw [idFromBytes, hhigh, hlow, beNat_encode h.1, beNat_encode h.2]
  rfl

theorem idBytes_idFromBytes {bytes : Bytes} (h : bytes.length = 32) : idBytes (idFromBytes bytes) = bytes := by
  have hhigh : (bytes.take 16).length = 16 := by simp [h]
  have hlow : (bytes.drop 16).length = 16 := by simp [h]
  show BigEndian.encode 16 (beNat _) ++ BigEndian.encode 16 (beNat _) = _
  rw [encode_beNat hhigh, encode_beNat hlow, List.take_append_drop]

theorem wide_idFromBytes {bytes : Bytes} (h : bytes.length = 32) : Wide (idFromBytes bytes) := by
  have hhigh : (bytes.take 16).length = 16 := by simp [h]
  have hlow : (bytes.drop 16).length = 16 := by simp [h]
  exact ⟨beNat_lt hhigh, beNat_lt hlow⟩

/-- A slice of three parts is the middle one. -/
theorem indexRange_append {front slice back : Bytes} {start stop : ℕ} (hstart : front.length = start)
    (hstop : start + slice.length = stop) :
    indexRange (front ++ (slice ++ back)) start stop = .ok slice := by
  subst hstart hstop
  rw [indexRange_eq (Nat.le_add_right _ _) (by simp), ← List.append_assoc,
    List.take_left' (List.length_append ..), List.drop_left]

theorem fixedRange_append {front slice back : Bytes} {start stop width : ℕ} (hstart : front.length = start)
    (hwidth : slice.length = width) (hstop : start + width = stop) :
    fixedRange (front ++ (slice ++ back)) start stop width = .ok slice := by
  rw [fixedRange, indexRange_append hstart (by rw [hwidth, hstop])]
  exact if_pos hwidth

/-- A conversion of a slice in range does not fail. -/
theorem fixedRange_eq {bytes : Bytes} {start width : ℕ} (h : start + width ≤ bytes.length) :
    fixedRange bytes start (start + width) width = .ok ((bytes.drop start).take width) := by
  have hslice : (bytes.take (start + width)).drop start = (bytes.drop start).take width := by
    rw [List.drop_take, Nat.add_sub_cancel_left]
  have hlength : ((bytes.drop start).take width).length = width := by
    rw [List.length_take, List.length_drop]
    omega
  rw [fixedRange, indexRange_eq (Nat.le_add_right _ _) h, hslice]
  exact if_pos hlength

theorem slice_append {front slice back : Bytes} {start width : ℕ} (hstart : front.length = start)
    (hwidth : slice.length = width) : ((front ++ (slice ++ back)).drop start).take width = slice := by
  rw [List.drop_left' hstart, List.take_left' hwidth]

/-! ## 2. Bodies

A body is padded with zeros to one of a few lengths, and the padding is checked. This is what makes the encoding
unique. -/

theorem rejectIf_congr {c d : Prop} [Decidable c] [Decidable d] (h : c ↔ d) : rejectIf c = rejectIf d := by
  unfold rejectIf
  exact if_congr h rfl rfl

theorem ok_bind {ε α β : Type} (a : α) (f : α → Except ε β) : (Except.ok a >>= f) = f a := rfl

/-- Two programs with the same first step need only agree on what it returns. -/
theorem bind_congr_ok {ε α β : Type} {m : Except ε α} {f g : α → Except ε β}
    (h : ∀ a, m = .ok a → f a = g a) : (m >>= f) = (m >>= g) := by
  cases m with
  | error e => rfl
  | ok a => exact h a rfl

/-- The decoder on the fields of a body. -/
def readBody (version : UInt8) (sender recipient messageId length rest : Bytes) (bucket : ℕ) :
    Except Stop MessageBody := do
  rejectIf (rest.length ≠ bucket)
  rejectIf (version ≠ 1)
  rejectIf ((← textBucket (beNat length)) ≠ bucket)
  rejectIf ((rest.drop (beNat length)).any (· != 0))
  let text ← okOrInvalid (fromUtf8 (rest.take (beNat length)))
  return ⟨idFromBytes sender, idFromBytes recipient, beNat messageId, text⟩

/-- The fields of a body in their order. -/
def layout (version : UInt8) (sender recipient messageId length rest : Bytes) : Bytes :=
  version :: (sender ++ (recipient ++ (messageId ++ (length ++ rest))))

theorem cut_body {bytes : Bytes} (h : 85 ≤ bytes.length) :
    ∃ version sender recipient messageId length rest,
      bytes = layout version sender recipient messageId length rest ∧ sender.length = 32 ∧
        recipient.length = 32 ∧ messageId.length = 16 ∧ length.length = 4 := by
  cases bytes with
  | nil => exact absurd h (by decide)
  | cons version l =>
    rw [List.length_cons] at h
    refine ⟨version, l.take 32, (l.drop 32).take 32, ((l.drop 32).drop 32).take 16,
      (((l.drop 32).drop 32).drop 16).take 4, (((l.drop 32).drop 32).drop 16).drop 4, ?_, ?_⟩
    · simp only [layout, List.take_append_drop]
    · simp only [List.length_take, List.length_drop]
      omega

section Layout

variable {version : UInt8} {sender recipient messageId length rest : Bytes} (hsender : sender.length = 32)
  (hrecipient : recipient.length = 32) (hmessageId : messageId.length = 16) (hlength : length.length = 4)

include hsender hrecipient hmessageId hlength in
theorem layout_length : (layout version sender recipient messageId length rest).length = 85 + rest.length := by
  simp only [layout, List.length_cons, List.length_append, hsender, hrecipient, hmessageId, hlength]
  omega

theorem usizeAdd_eq {a b : ℕ} (h : a + b < 2 ^ 64) : usizeAdd a b = .ok (a + b) := by
  rw [usizeAdd, usizeCheckedAdd, if_pos h]

include hsender hrecipient hmessageId hlength in
/-- **On a layout, decoding reads the fields.** The slices are computed, so that no index is left in what follows.
-/
theorem decode_layout {bucket : ℕ} (hbucket : BODY_METADATA_BYTES + bucket < 2 ^ 64) :
    MessageBody.decode (layout version sender recipient messageId length rest) bucket =
      readBody version sender recipient messageId length rest bucket := by
  have hsize := @layout_length version sender recipient messageId length rest hsender hrecipient hmessageId
    hlength
  have h₀ : indexByte (layout version sender recipient messageId length rest) 0 = .ok version := rfl
  have h₁ : fixedRange (layout version sender recipient messageId length rest) 1 33 32 = .ok sender :=
    @fixedRange_append [version] sender _ _ _ _ rfl hsender rfl
  have h₂ : fixedRange (layout version sender recipient messageId length rest) 33 65 32 = .ok recipient := by
    have h := @fixedRange_append (version :: sender) recipient (messageId ++ (length ++ rest)) 33 65 32
      (by simp [hsender]) hrecipient rfl
    simpa [layout] using h
  have h₃ : fixedRange (layout version sender recipient messageId length rest) 65 81 16 = .ok messageId := by
    have h := @fixedRange_append (version :: (sender ++ recipient)) messageId (length ++ rest) 65 81 16
      (by simp [hsender, hrecipient]) hmessageId rfl
    simpa [layout] using h
  have h₄ : fixedRange (layout version sender recipient messageId length rest) 81 85 4 = .ok length := by
    have h := @fixedRange_append (version :: (sender ++ (recipient ++ messageId))) length rest 81 85 4
      (by simp [hsender, hrecipient, hmessageId]) hlength rfl
    simpa [layout] using h
  have hrest : layout version sender recipient messageId length rest =
      (version :: (sender ++ (recipient ++ (messageId ++ length)))) ++ rest := by simp [layout]
  have hfront : (version :: (sender ++ (recipient ++ (messageId ++ length)))).length = 85 := by
    simp [hsender, hrecipient, hmessageId, hlength]
  have hcount : (layout version sender recipient messageId length rest).length ≠ BODY_METADATA_BYTES + bucket ↔
      rest.length ≠ bucket := by
    rw [hsize, BODY_METADATA_BYTES]
    omega
  unfold MessageBody.decode readBody
  simp only [usizeAdd_eq hbucket, h₀, h₁, h₂, h₃, h₄, ok_bind, rejectIf_congr hcount]
  refine bind_congr_ok fun _ hcounted => bind_congr_ok fun _ _ => bind_congr_ok fun k hk =>
    bind_congr_ok fun _ hbucketed => ?_
  -- the length is no greater than the bucket, so both slices are in range
  obtain rfl : rest.length = bucket := not_not.mp (rejectIf_eq_ok.mp hcounted)
  obtain rfl : k = rest.length := not_not.mp (rejectIf_eq_ok.mp hbucketed)
  have hle := (textBucket_spec hk).1
  have hpadding : indexRange (layout version sender recipient messageId length rest)
      (BODY_METADATA_BYTES + beNat length) (layout version sender recipient messageId length rest).length =
        .ok (rest.drop (beNat length)) := by
    have hcut := @indexRange_append (version :: (sender ++ (recipient ++ (messageId ++ length))) ++
      rest.take (beNat length)) (rest.drop (beNat length)) [] (BODY_METADATA_BYTES + beNat length)
      (layout version sender recipient messageId length rest).length
      (by rw [List.length_append, hfront, List.length_take_of_le hle]; rfl)
      (by rw [hsize, List.length_drop, BODY_METADATA_BYTES]; omega)
    rwa [List.append_nil, List.append_assoc, List.take_append_drop, ← hrest] at hcut
  have htext : indexRange (layout version sender recipient messageId length rest) BODY_METADATA_BYTES
      (BODY_METADATA_BYTES + beNat length) = .ok (rest.take (beNat length)) := by
    have hcut := @indexRange_append (version :: (sender ++ (recipient ++ (messageId ++ length))))
      (rest.take (beNat length)) (rest.drop (beNat length)) BODY_METADATA_BYTES
      (BODY_METADATA_BYTES + beNat length) hfront (by rw [List.length_take_of_le hle])
    rwa [List.take_append_drop, ← hrest] at hcut
  rw [hpadding, htext]
  rfl

end Layout

theorem readBody_ensures (version : UInt8) (sender recipient messageId length rest : Bytes) (bucket : ℕ) :
    Ensures (readBody version sender recipient messageId length rest bucket) (fun _ => True) (· = .invalid) := by
  unfold readBody
  refine (rejectIf_ensures _).bind fun _ _ => (rejectIf_ensures _).bind fun _ _ => ?_
  refine (okOrInvalid_ensures _).bind fun _ _ => (rejectIf_ensures _).bind fun _ _ => ?_
  exact (rejectIf_ensures _).bind fun _ _ => (okOrInvalid_ensures _).bind fun _ _ => trivial

theorem readBody_eq_ok {version : UInt8} {sender recipient messageId length rest : Bytes} {bucket : ℕ}
    {b : MessageBody} :
    readBody version sender recipient messageId length rest bucket = .ok b ↔
      rest.length = bucket ∧ version = 1 ∧ textBucket (beNat length) = .ok bucket ∧
        (∀ x ∈ rest.drop (beNat length), x = 0) ∧ ∃ text, fromUtf8 (rest.take (beNat length)) = some text ∧
          b = ⟨idFromBytes sender, idFromBytes recipient, beNat messageId, text⟩ := by
  unfold readBody
  simp only [bind_eq_ok, rejectIf_eq_ok, okOrInvalid_eq_ok, not_not, exists_const]
  constructor
  · rintro ⟨hrest, hversion, k, hk, rfl, hzero, text, htext, hb⟩
    cases hb
    exact ⟨hrest, hversion, hk, by simpa using hzero, text, htext, rfl⟩
  · rintro ⟨hrest, hversion, hk, hzero, text, htext, rfl⟩
    exact ⟨hrest, hversion, bucket, hk, rfl, by simpa using hzero, text, htext, rfl⟩

/-- **A body decodes or is refused**, whatever the bytes. A string that is too short is refused before it is
indexed. -/
theorem decode_ensures (bytes : Bytes) {bucket : ℕ} (hbucket : BODY_METADATA_BYTES + bucket < 2 ^ 64) :
    Ensures (MessageBody.decode bytes bucket) (fun _ => True) (· = .invalid) := by
  by_cases hlength : bytes.length = BODY_METADATA_BYTES + bucket
  · obtain ⟨version, sender, recipient, messageId, length, rest, rfl, hsender, hrecipient, hmessageId, hl⟩ :=
      @cut_body bytes (by rw [hlength, BODY_METADATA_BYTES]; omega)
    rw [decode_layout hsender hrecipient hmessageId hl hbucket]
    exact readBody_ensures ..
  · unfold MessageBody.decode
    rw [usizeAdd_eq hbucket, ok_bind, rejectIf, if_pos hlength]
    exact rfl

/-- The bytes of a body: its fields, its text and as many zeros as the bucket asks for. -/
theorem encode_eq {b : MessageBody} {bucket : ℕ} (h : textBucket (asBytes b.text).length = .ok bucket) :
    b.encode = .ok (layout 1 (idBytes b.sender) (idBytes b.recipient) (BigEndian.encode 16 b.messageId)
      (BigEndian.encode 4 (asBytes b.text).length)
      (asBytes b.text ++ List.replicate (bucket - (asBytes b.text).length) 0)) := by
  obtain ⟨hle, hmax⟩ := textBucket_spec h
  have hmod : (asBytes b.text).length % 2 ^ 32 = (asBytes b.text).length := Nat.mod_eq_of_lt (by omega)
  unfold MessageBody.encode
  dsimp only
  rw [h, ok_bind, hmod]
  have hsize : (1 :: (idBytes b.sender ++ (idBytes b.recipient ++ (BigEndian.encode 16 b.messageId ++
      (BigEndian.encode 4 (asBytes b.text).length ++ asBytes b.text))))).length = 85 + (asBytes b.text).length := by
    simp
    omega
  have hpadding : BODY_METADATA_BYTES + bucket - (85 + (asBytes b.text).length) =
      bucket - (asBytes b.text).length := Nat.add_sub_add_left 85 ..
  refine congrArg Except.ok ?_
  rw [resize, List.take_of_length_le (by rw [hsize, BODY_METADATA_BYTES]; omega), hsize, hpadding]
  simp [layout]

/-- The fields of a body are numbers of their widths. -/
structure MessageBody.Representable (b : MessageBody) : Prop where
  sender : Wide b.sender
  recipient : Wide b.recipient
  messageId : b.messageId < 2 ^ 128

/-- **What is encoded is decoded**, with the bucket that its text has. -/
theorem decode_encode {b : MessageBody} (hb : b.Representable) {bucket : ℕ}
    (h : textBucket (asBytes b.text).length = .ok bucket) :
    ∃ bytes, b.encode = .ok bytes ∧ MessageBody.decode bytes bucket = .ok b := by
  obtain ⟨hle, hmax⟩ := textBucket_spec h
  have hlength : beNat (BigEndian.encode 4 (asBytes b.text).length) = (asBytes b.text).length :=
    beNat_encode (by omega)
  refine ⟨_, encode_eq h, ?_⟩
  rw [decode_layout (idBytes_length _) (idBytes_length _) (BigEndian.encode_length ..)
    (BigEndian.encode_length ..) (by rw [BODY_METADATA_BYTES]; omega)]
  refine readBody_eq_ok.mpr ⟨?_, rfl, by rw [hlength, h], ?_, b.text, ?_, ?_⟩
  · rw [List.length_append, List.length_replicate]
    omega
  · rw [hlength, List.drop_left]
    exact fun x hx => List.eq_of_mem_replicate hx
  · rw [hlength, List.take_left, fromUtf8_asBytes]
  · rw [idFromBytes_idBytes hb.sender, idFromBytes_idBytes hb.recipient, beNat_encode hb.messageId]

/-- **Only what is encoded is decoded**: the length field, the bucket and the padding leave no choice. -/
theorem encode_of_decode {bytes : Bytes} {bucket : ℕ} {b : MessageBody}
    (h : MessageBody.decode bytes bucket = .ok b) :
    b.Representable ∧ textBucket (asBytes b.text).length = .ok bucket ∧ b.encode = .ok bytes := by
  obtain ⟨size, hsize, hrest⟩ := bind_eq_ok.mp h
  have hbucket : BODY_METADATA_BYTES + bucket < 2 ^ 64 := by
    by_contra hover
    rw [usizeAdd, usizeCheckedAdd, if_neg hover] at hsize
    cases hsize
  have hlength : bytes.length = BODY_METADATA_BYTES + bucket := by
    rw [usizeAdd_eq hbucket] at hsize
    cases hsize
    obtain ⟨_, hcount, -⟩ := bind_eq_ok.mp hrest
    exact not_not.mp (rejectIf_eq_ok.mp hcount)
  obtain ⟨version, sender, recipient, messageId, length, rest, rfl, hsender, hrecipient, hmessageId, hl⟩ :=
    @cut_body bytes (by rw [hlength, BODY_METADATA_BYTES]; omega)
  rw [decode_layout hsender hrecipient hmessageId hl hbucket] at h
  obtain ⟨hrestLength, rfl, hchosen, hzero, text, htext, rfl⟩ := readBody_eq_ok.mp h
  have hle := (textBucket_spec hchosen).1
  have htextBytes : asBytes text = rest.take (beNat length) := asBytes_of_fromUtf8 htext
  have htextLength : (asBytes text).length = beNat length := by
    rw [htextBytes, List.length_take]
    omega
  have hzeros : rest.drop (beNat length) = List.replicate (bucket - beNat length) 0 := by
    refine List.eq_replicate_iff.mpr ⟨?_, hzero⟩
    rw [List.length_drop, hrestLength]
  refine ⟨⟨wide_idFromBytes hsender, wide_idFromBytes hrecipient, beNat_lt hmessageId⟩,
    by rw [htextLength, hchosen], ?_⟩
  rw [@encode_eq _ bucket (by rw [htextLength, hchosen])]
  dsimp only
  rw [htextLength, ← hzeros, htextBytes, List.take_append_drop, idBytes_idFromBytes hsender,
    idBytes_idFromBytes hrecipient, encode_beNat hmessageId, encode_beNat hl]

/-! ## 3. Announcements

The decoder also validates: a window that is empty, a lifetime that is too long, and an announcement that was
published before its window opens are refused. -/

section Announcement

variable [Primitives]

/-- Its fields are byte strings of their widths, and a key is valid. -/
structure Announcement.Valid (a : Announcement) : Prop where
  deviceId : a.deviceId.length = 16
  publicKey : ∀ e ∈ a.epoch, e.publicKey.length = 32
  validate : ∀ e ∈ a.epoch, e.validate = true

theorem decode_retired {version flag : UInt8} {deviceId : Bytes} (h : deviceId.length = 16) (t : ℕ) :
    Announcement.decode (version :: flag :: deviceId) t =
      if version = 1 ∧ flag = 0 then some ⟨deviceId, none⟩ else none := by
  have hlength : (version :: flag :: deviceId).length = 18 := by simp [h]
  have htake : deviceId.take 16 = deviceId := List.take_of_length_le h.le
  unfold Announcement.decode
  rw [hlength]
  by_cases hversion : version = 1
  · by_cases hflag : flag = 0
    · simp [hversion, hflag, htake]
    · simp [hversion, hflag]
  · simp [hversion]

section Fields

variable {version flag : UInt8} {deviceId publicKey sendFrom sendUntil decryptUntil : Bytes}

/-- The epoch that is read from four fields. -/
def readEpoch (publicKey sendFrom sendUntil decryptUntil : Bytes) : EpochPublic :=
  ⟨publicKey, beNat sendFrom, beNat sendUntil, beNat decryptUntil⟩

/-- The bytes of an announcement with an epoch. -/
def activeBytes (version flag : UInt8) (deviceId publicKey sendFrom sendUntil decryptUntil : Bytes) : Bytes :=
  version :: flag :: (deviceId ++ (publicKey ++ (sendFrom ++ (sendUntil ++ decryptUntil))))

variable (hdevice : deviceId.length = 16) (hkey : publicKey.length = 32) (hfrom : sendFrom.length = 8)
  (huntil : sendUntil.length = 8) (hdecrypt : decryptUntil.length = 8)

omit [Primitives] in
include hdevice hkey hfrom huntil hdecrypt in
theorem activeBytes_slices (version flag : UInt8) :
    ((activeBytes version flag deviceId publicKey sendFrom sendUntil decryptUntil).drop 2).take 16 = deviceId ∧
      ((activeBytes version flag deviceId publicKey sendFrom sendUntil decryptUntil).drop 18).take 32 = publicKey ∧
      ((activeBytes version flag deviceId publicKey sendFrom sendUntil decryptUntil).drop 50).take 8 = sendFrom ∧
      ((activeBytes version flag deviceId publicKey sendFrom sendUntil decryptUntil).drop 58).take 8 = sendUntil ∧
      ((activeBytes version flag deviceId publicKey sendFrom sendUntil decryptUntil).drop 66).take 8 =
        decryptUntil := by
  have h₂ : ((activeBytes version flag deviceId publicKey sendFrom sendUntil decryptUntil).drop 2).take 16 =
      deviceId := @slice_append [version, flag] deviceId _ 2 16 rfl hdevice
  have h₃ : ((activeBytes version flag deviceId publicKey sendFrom sendUntil decryptUntil).drop 18).take 32 =
      publicKey := by
    have h := @slice_append (version :: flag :: deviceId) publicKey (sendFrom ++ (sendUntil ++ decryptUntil)) 18 32
      (by simp [hdevice]) hkey
    simpa [activeBytes] using h
  have h₄ : ((activeBytes version flag deviceId publicKey sendFrom sendUntil decryptUntil).drop 50).take 8 =
      sendFrom := by
    have h := @slice_append (version :: flag :: (deviceId ++ publicKey)) sendFrom (sendUntil ++ decryptUntil) 50 8
      (by simp [hdevice, hkey]) hfrom
    simpa [activeBytes] using h
  have h₅ : ((activeBytes version flag deviceId publicKey sendFrom sendUntil decryptUntil).drop 58).take 8 =
      sendUntil := by
    have h := @slice_append (version :: flag :: (deviceId ++ (publicKey ++ sendFrom))) sendUntil decryptUntil 58 8
      (by simp [hdevice, hkey, hfrom]) huntil
    simpa [activeBytes] using h
  have h₆ : ((activeBytes version flag deviceId publicKey sendFrom sendUntil decryptUntil).drop 66).take 8 =
      decryptUntil := by
    have h := @slice_append (version :: flag :: (deviceId ++ (publicKey ++ (sendFrom ++ sendUntil)))) decryptUntil []
      66 8 (by simp [hdevice, hkey, hfrom, huntil]) hdecrypt
    simpa [activeBytes] using h
  exact ⟨h₂, h₃, h₄, h₅, h₆⟩

include hdevice hkey hfrom huntil hdecrypt in
theorem decode_active (t : ℕ) :
    Announcement.decode (activeBytes version flag deviceId publicKey sendFrom sendUntil decryptUntil) t =
      if version = 1 ∧ flag = 1 ∧ (readEpoch publicKey sendFrom sendUntil decryptUntil).validate = true ∧
          beNat sendFrom ≤ t ∧ t ≤ i64Max then
        some ⟨deviceId, some (readEpoch publicKey sendFrom sendUntil decryptUntil)⟩
      else none := by
  have hlength : (activeBytes version flag deviceId publicKey sendFrom sendUntil decryptUntil).length = 74 := by
    simp [activeBytes, hdevice, hkey, hfrom, huntil, hdecrypt]
  have h₀ : (activeBytes version flag deviceId publicKey sendFrom sendUntil decryptUntil).headD 0 = version := rfl
  have h₁ : (activeBytes version flag deviceId publicKey sendFrom sendUntil decryptUntil).getD 1 0 = flag := rfl
  obtain ⟨h₂, h₃, h₄, h₅, h₆⟩ := activeBytes_slices hdevice hkey hfrom huntil hdecrypt version flag
  unfold Announcement.decode
  rw [hlength, h₀, h₁, h₂, h₃, h₄, h₅, h₆]
  by_cases hversion : version = 1
  · by_cases hflag : flag = 1
    · simp only [hversion, hflag, readEpoch]
      by_cases hvalid : (⟨publicKey, beNat sendFrom, beNat sendUntil, beNat decryptUntil⟩ : EpochPublic).validate
      · by_cases hwindow : beNat sendFrom ≤ t ∧ t ≤ i64Max
        · simp [hvalid, hwindow]
        · simp [hvalid, hwindow]
      · simp [hvalid]
    · simp [hversion, hflag]
  · simp [hversion]

end Fields

omit [Primitives] in
theorem cut_retired {bytes : Bytes} (h : bytes.length = 18) :
    ∃ version flag deviceId, bytes = version :: flag :: deviceId ∧ deviceId.length = 16 := by
  match bytes, h with
  | version :: flag :: deviceId, h => exact ⟨version, flag, deviceId, rfl, by simpa using h⟩

omit [Primitives] in
theorem cut_active {bytes : Bytes} (h : bytes.length = 74) :
    ∃ version flag deviceId publicKey sendFrom sendUntil decryptUntil,
      bytes = activeBytes version flag deviceId publicKey sendFrom sendUntil decryptUntil ∧
        deviceId.length = 16 ∧ publicKey.length = 32 ∧ sendFrom.length = 8 ∧ sendUntil.length = 8 ∧
        decryptUntil.length = 8 := by
  match bytes, h with
  | version :: flag :: l, h =>
    have hl : l.length = 72 := by simpa using h
    refine ⟨version, flag, l.take 16, (l.drop 16).take 32, ((l.drop 16).drop 32).take 8,
      (((l.drop 16).drop 32).drop 8).take 8, (((l.drop 16).drop 32).drop 8).drop 8, ?_, ?_⟩
    · simp only [activeBytes, List.take_append_drop]
    · simp only [List.length_take, List.length_drop]
      omega

theorem decode_of_length {bytes : Bytes} {t : ℕ} (h₁ : bytes.length ≠ 18) (h₂ : bytes.length ≠ 74) :
    Announcement.decode bytes t = none := by
  unfold Announcement.decode
  simp [h₁, h₂]

theorem EpochPublic.validate_times {e : EpochPublic} (h : e.validate = true) :
    e.sendFrom < 2 ^ 64 ∧ e.sendUntil < 2 ^ 64 ∧ e.decryptUntil < 2 ^ 64 := by
  have hmaximum : i64Max < 2 ^ 64 := by decide
  simp only [EpochPublic.validate, Bool.and_eq_true, decide_eq_true_eq] at h
  obtain ⟨⟨⟨⟨hfrom, huntil⟩, hmax⟩, -⟩, -⟩ := h
  exact ⟨by omega, by omega, by omega⟩

/-- **What is announced is read back**, from the time on at which its window opens. -/
theorem announcement_decode_encode {a : Announcement} (ha : a.Valid) {t : ℕ}
    (ht : ∀ e ∈ a.epoch, e.sendFrom ≤ t ∧ t ≤ i64Max) :
    ∃ bytes, a.encode = some bytes ∧ Announcement.decode bytes t = some a := by
  obtain ⟨deviceId, epoch⟩ := a
  cases epoch with
  | none =>
    refine ⟨_, rfl, ?_⟩
    rw [decode_retired ha.deviceId]
    exact if_pos ⟨rfl, rfl⟩
  | some e =>
    have hvalidate := ha.validate e rfl
    obtain ⟨hfrom, huntil, hdecrypt⟩ := EpochPublic.validate_times hvalidate
    have hread : readEpoch e.publicKey (BigEndian.encode 8 e.sendFrom) (BigEndian.encode 8 e.sendUntil)
        (BigEndian.encode 8 e.decryptUntil) = e := by
      rw [readEpoch, beNat_encode hfrom, beNat_encode huntil, beNat_encode hdecrypt]
    refine ⟨_, if_pos hvalidate, ?_⟩
    have hdecode := @decode_active _ 1 1 deviceId e.publicKey (BigEndian.encode 8 e.sendFrom)
      (BigEndian.encode 8 e.sendUntil) (BigEndian.encode 8 e.decryptUntil) ha.deviceId (ha.publicKey e rfl)
      (BigEndian.encode_length ..) (BigEndian.encode_length ..) (BigEndian.encode_length ..) t
    rw [hread, beNat_encode hfrom, if_pos ⟨rfl, rfl, hvalidate, ht e rfl⟩] at hdecode
    exact hdecode

/-- **Only what can be announced is read back**, at a time when its window has opened. -/
theorem announcement_encode_of_decode {bytes : Bytes} {t : ℕ} {a : Announcement}
    (h : Announcement.decode bytes t = some a) :
    a.Valid ∧ (∀ e ∈ a.epoch, e.sendFrom ≤ t ∧ t ≤ i64Max) ∧ a.encode = some bytes := by
  by_cases h18 : bytes.length = 18
  · obtain ⟨version, flag, deviceId, rfl, hdevice⟩ := cut_retired h18
    rw [decode_retired hdevice] at h
    split at h
    · next hfields =>
      obtain ⟨rfl, rfl⟩ := hfields
      cases h
      exact ⟨⟨hdevice, nofun, nofun⟩, nofun, rfl⟩
    · cases h
  by_cases h74 : bytes.length = 74
  · obtain ⟨version, flag, deviceId, publicKey, sendFrom, sendUntil, decryptUntil, rfl, hdevice, hkey, hfrom,
      huntil, hdecrypt⟩ := cut_active h74
    rw [decode_active hdevice hkey hfrom huntil hdecrypt] at h
    split at h
    · next hfields =>
      obtain ⟨rfl, rfl, hvalidate, hwindow⟩ := hfields
      cases h
      refine ⟨⟨hdevice, fun e he => ?_, fun e he => ?_⟩, fun e he => ?_, ?_⟩
      · cases he
        exact hkey
      · cases he
        exact hvalidate
      · cases he
        exact hwindow
      · refine (if_pos hvalidate).trans ?_
        dsimp only [readEpoch]
        rw [encode_beNat hfrom, encode_beNat huntil, encode_beNat hdecrypt]
        rfl
    · cases h
  · rw [decode_of_length h18 h74] at h
    cases h

/-- **No index of the decoder is out of range**, and no conversion fails. -/
theorem decodeIndexed_eq (bytes : Bytes) (t : ℕ) :
    Announcement.decodeIndexed bytes t = okOrInvalid (Announcement.decode bytes t) := by
  by_cases h18 : bytes.length = 18
  · obtain ⟨version, flag, deviceId, rfl, hdevice⟩ := cut_retired h18
    have h₀ : indexByte (version :: flag :: deviceId) 0 = .ok version := rfl
    have h₁ : indexByte (version :: flag :: deviceId) 1 = .ok flag := rfl
    have h₂ : fixedRange (version :: flag :: deviceId) 2 18 16 = .ok deviceId := by
      have h := @fixedRange_append [version, flag] deviceId [] 2 18 16 rfl hdevice rfl
      rwa [List.append_nil] at h
    unfold Announcement.decodeIndexed
    rw [decode_retired hdevice, h18, h₀, h₁, h₂]
    by_cases hversion : version = 1
    · by_cases hflag : flag = 0
      · simp [hversion, hflag, rejectIf, okOrInvalid, ok_bind]
      · simp [hversion, hflag, rejectIf, okOrInvalid, ok_bind]
        rfl
    · simp [hversion, rejectIf, okOrInvalid, ok_bind]
      rfl
  by_cases h74 : bytes.length = 74
  · obtain ⟨version, flag, deviceId, publicKey, sendFrom, sendUntil, decryptUntil, rfl, hdevice, hkey, hfrom,
      huntil, hdecrypt⟩ := cut_active h74
    have h₀ : indexByte (activeBytes version flag deviceId publicKey sendFrom sendUntil decryptUntil) 0 =
      .ok version := rfl
    have h₁ : indexByte (activeBytes version flag deviceId publicKey sendFrom sendUntil decryptUntil) 1 =
      .ok flag := rfl
    obtain ⟨hs₂, hs₃, hs₄, hs₅, hs₆⟩ := activeBytes_slices hdevice hkey hfrom huntil hdecrypt version flag
    have h₂ := @fixedRange_eq (activeBytes version flag deviceId publicKey sendFrom sendUntil decryptUntil) 2 16
      (by omega)
    have h₃ := @fixedRange_eq (activeBytes version flag deviceId publicKey sendFrom sendUntil decryptUntil) 18 32
      (by omega)
    have h₄ := @fixedRange_eq (activeBytes version flag deviceId publicKey sendFrom sendUntil decryptUntil) 50 8
      (by omega)
    have h₅ := @fixedRange_eq (activeBytes version flag deviceId publicKey sendFrom sendUntil decryptUntil) 58 8
      (by omega)
    have h₆ := @fixedRange_eq (activeBytes version flag deviceId publicKey sendFrom sendUntil decryptUntil) 66 8
      (by omega)
    rw [hs₂] at h₂
    rw [hs₃] at h₃
    rw [hs₄] at h₄
    rw [hs₅] at h₅
    rw [hs₆] at h₆
    unfold Announcement.decodeIndexed
    rw [decode_active hdevice hkey hfrom huntil hdecrypt, h74, h₀, h₁, h₂, h₃, h₄, h₅, h₆]
    by_cases hversion : version = 1
    · by_cases hflag : flag = 1
      · cases hvalid : (readEpoch publicKey sendFrom sendUntil decryptUntil).validate with
        | false =>
          simp only [readEpoch] at hvalid
          simp [hversion, hflag, hvalid, rejectIf, okOrInvalid, ok_bind]
          rfl
        | true =>
          simp only [readEpoch] at hvalid
          by_cases hwindow : beNat sendFrom ≤ t ∧ t ≤ i64Max
          · have hin : ¬ (t < beNat sendFrom ∨ i64Max < t) := by omega
            simp [hversion, hflag, hvalid, hwindow, hin, rejectIf, okOrInvalid, ok_bind, readEpoch]
          · have hoff : t < beNat sendFrom ∨ i64Max < t := by omega
            simp [hversion, hflag, hvalid, hwindow, hoff, rejectIf, okOrInvalid, ok_bind]
            rfl
      · simp [hversion, hflag, rejectIf, okOrInvalid, ok_bind]
        rfl
    · simp [hversion, rejectIf, okOrInvalid, ok_bind]
      rfl
  · have hrefused : rejectIf (!(bytes.length == 18 || bytes.length == 74)) = .error .invalid :=
      if_pos (by simp [h18, h74])
    unfold Announcement.decodeIndexed
    rw [decode_of_length h18 h74, hrefused]
    rfl

/-! ## 4. The result

All clauses together. -/

/-- **The wire records are canonical.**  A body or an announcement that can be sent is read back from its encoding,
whatever is read back has exactly the bytes it was read from as its encoding, in exactly one bucket, and both
decoders refuse everything else without a panic.

The bucket of a body is the length of a frame less the overhead, so the sum with the metadata stays within 64 bits;
`decodeIndexed` is the decoder of announcements with its indexing as it stands in the source. -/
theorem wire_canonical :
    (∀ b : MessageBody, b.Representable → (asBytes b.text).length ≤ 16384 →
      ∃ bucket bytes, textBucket (asBytes b.text).length = .ok bucket ∧ b.encode = .ok bytes ∧
        MessageBody.decode bytes bucket = .ok b) ∧
      (∀ bytes bucket b, MessageBody.decode bytes bucket = .ok b →
        b.Representable ∧ textBucket (asBytes b.text).length = .ok bucket ∧ b.encode = .ok bytes) ∧
      (∀ bytes bucket, BODY_METADATA_BYTES + bucket < 2 ^ 64 →
        MessageBody.decode bytes bucket = .error .invalid ∨ ∃ b, MessageBody.decode bytes bucket = .ok b) ∧
      (∀ a : Announcement, a.Valid → ∀ t, (∀ e ∈ a.epoch, e.sendFrom ≤ t ∧ t ≤ i64Max) →
        ∃ bytes, a.encode = some bytes ∧ Announcement.decodeIndexed bytes t = .ok a) ∧
      (∀ bytes t a, Announcement.decodeIndexed bytes t = .ok a →
        a.Valid ∧ (∀ e ∈ a.epoch, e.sendFrom ≤ t ∧ t ≤ i64Max) ∧ a.encode = some bytes) ∧
      ∀ bytes t, Announcement.decodeIndexed bytes t = .error .invalid ∨
        ∃ a, Announcement.decodeIndexed bytes t = .ok a := by
  refine ⟨fun b hb hlength => ?_, fun bytes bucket b h => encode_of_decode h, fun bytes bucket hbucket => ?_,
    fun a ha t ht => ?_, fun bytes t a h => ?_, fun bytes t => ?_⟩
  · obtain ⟨bucket, hbucket⟩ := exists_textBucket hlength
    obtain ⟨bytes, hencode, hdecode⟩ := decode_encode hb hbucket
    exact ⟨bucket, bytes, hbucket, hencode, hdecode⟩
  · cases h : MessageBody.decode bytes bucket with
    | error e => exact .inl (congrArg Except.error ((decode_ensures bytes hbucket).of_error h))
    | ok b => exact .inr ⟨b, rfl⟩
  · obtain ⟨bytes, hencode, hdecode⟩ := announcement_decode_encode ha ht
    exact ⟨bytes, hencode, by rw [decodeIndexed_eq, hdecode]; rfl⟩
  · rw [decodeIndexed_eq] at h
    exact announcement_encode_of_decode (okOrInvalid_eq_ok.mp h)
  · rw [decodeIndexed_eq]
    cases Announcement.decode bytes t with
    | none => exact .inl rfl
    | some a => exact .inr ⟨a, rfl⟩

end Announcement

end Rostra.Dm
