/-
# The frame parser accepts exactly its grammar

The grammar of a frame is written down by itself (`Stanza`, `Header`, `IsFrame`): what a sender
lays out, with no offset, no limit on a line and no limit on the header.  The scanner is then
compared with it.

* `line_ensures` and `line_of_drop` say what one line is: the bytes up to the next newline, and
  nothing else of the file.  Both loops are read through these two.
* Each loop has a lemma in both directions.  Downwards, whatever the loop returns was laid out by
  the grammar, and it ends because a line takes at least one byte.  Upwards, the loop reads back
  whatever the grammar lays out, and here the limits have to be shown wide enough: the longest
  header has 1044 bytes, the longest line 64.
* `validateFrame_exact` puts the length field and the padding around it.

The frame comes from the network and is scanned before anything in it is verified, so it matters that the scanner
is not more liberal than the grammar: what it accepts is what a sender could have laid out, byte for byte.
-/
import Rostra.Dm.Envelope
import Rostra.Lib.Outcome

namespace Rostra.Dm

open Rostra Outcome

/-! ## 1. The grammar

Byte strings are built up from their parts. The grammar is relational where a sender has a choice, in the order of
the stanzas and the text of a GREASE stanza, and has no choice left elsewhere. -/

/-- What is documented of unpadded standard base64: it can be read back, four characters stand for
three bytes, and its alphabet is the printable one. -/
structure Base64.Canonical (engine : Base64) : Prop where
  decode_encode : ∀ v, engine.decode (engine.encode v) = some v
  encode_length : ∀ v, (engine.encode v).length = (4 * v.length + 2) / 3
  encode_printable : ∀ v, ∀ c ∈ engine.encode v, 33 ≤ c ∧ c ≤ 126

/-- A recipient stanza of the header. -/
inductive Stanza
  | native (ephemeral wrapped : Bytes)
  | grease (tag : Bytes) (arguments : List Bytes) (body : Bytes)

def Stanza.isNative : Stanza → Bool
  | .native _ _ => true
  | .grease _ _ _ => false

@[simp] theorem Stanza.isNative_native (ephemeral wrapped : Bytes) :
    (Stanza.native ephemeral wrapped).isNative = true := rfl

@[simp] theorem Stanza.isNative_grease (tag : Bytes) (arguments : List Bytes) (body : Bytes) :
    (Stanza.grease tag arguments body).isNative = false := rfl

/-- One to eight printable characters. -/
def IsWord (w : Bytes) : Prop := 1 ≤ w.length ∧ w.length ≤ 8 ∧ ∀ c ∈ w, 33 ≤ c ∧ c ≤ 126

def Stanza.WellFormed : Stanza → Prop
  | .native ephemeral wrapped => ephemeral.length = 32 ∧ wrapped.length = 32
  | .grease tag arguments body =>
    IsWord tag ∧ arguments.length ≤ 4 ∧ (∀ a ∈ arguments, IsWord a) ∧ body.length ≤ 99

/-- Lines of 64 characters, the last one shorter and perhaps empty. -/
def wrap (text : Bytes) : Bytes :=
  if text.length < 64 then text ++ [newline] else text.take 64 ++ newline :: wrap (text.drop 64)
termination_by text.length
decreasing_by
  rw [List.length_drop]
  omega

/-- The tag and the arguments, each behind a space. -/
def greaseStart (tag : Bytes) (arguments : List Bytes) : Bytes :=
  ascii "-> " ++ [space].intercalate ((tag ++ ascii "-grease") :: arguments)

def Stanza.bytes (engine : Base64) : Stanza → Bytes
  | .native ephemeral wrapped =>
    ascii "-> X25519 " ++ engine.encode ephemeral ++ [newline] ++ engine.encode wrapped ++ [newline]
  | .grease tag arguments body =>
    greaseStart tag arguments ++ [newline] ++ wrap (engine.encode body)

structure Header where
  stanzas : List Stanza
  mac : Bytes

/-- Eight native stanzas and at most one GREASE stanza, in any order. -/
structure Header.WellFormed (h : Header) : Prop where
  stanzas : ∀ s ∈ h.stanzas, s.WellFormed
  native : h.stanzas.countP Stanza.isNative = 8
  grease : h.stanzas.countP (fun s => !s.isNative) ≤ 1
  mac : h.mac.length = 32

def Header.bytes (engine : Base64) (h : Header) : Bytes :=
  ascii "age-encryption.org/v1" ++ [newline] ++ h.stanzas.flatMap (Stanza.bytes engine) ++
    (ascii "--- " ++ engine.encode h.mac ++ [newline])

/-- `u32::to_be_bytes`. -/
def be32 (n : ℕ) : Bytes := [24, 16, 8, 0].map fun shift => UInt8.ofNat (n / 2 ^ shift)

/-- `frame` holds `file`: its length, the header, nonce, plaintext and tag, and zero padding. -/
def IsFrame (engine : Base64) (frame file : Bytes) : Prop :=
  ∃ bucket ∈ TEXT_BUCKETS, ∃ (header : Header) (payload : Bytes) (padding : ℕ),
    header.WellFormed ∧ payload.length = 16 + 85 + bucket + 16 ∧
    file = header.bytes engine ++ payload ∧
    frame = be32 file.length ++ file ++ List.replicate padding 0 ∧ frame.length = 2048 + bucket

/-! ## 2. One line

The scanner works with offsets into the file and bounds on a line; a line is characterized without them. -/

@[simp] theorem okOrInvalid_eq_ok {α : Type} {o : Option α} {a : α} :
    okOrInvalid o = .ok a ↔ o = some a := by
  cases o with
  | none => simp [okOrInvalid]
  | some b => simp [okOrInvalid]

@[simp] theorem rejectIf_eq_ok {c : Prop} [Decidable c] {u : Unit} :
    rejectIf c = .ok u ↔ ¬ c := by
  unfold rejectIf
  split
  · simp_all
  · simp_all

theorem getRange_eq_some {bytes slice : Bytes} {start stop : ℕ} :
    getRange bytes start stop = some slice ↔
      start ≤ stop ∧ stop ≤ bytes.length ∧ slice = (bytes.take stop).drop start := by
  unfold getRange
  split
  · rename_i h
    simp [h.1, h.2, eq_comm]
  · rename_i h
    simp only [reduceCtorEq, false_iff]
    exact fun ⟨h₁, h₂, _⟩ => h ⟨h₁, h₂⟩

@[simp] theorem indexRange_eq_ok {bytes slice : Bytes} {start stop : ℕ} :
    indexRange bytes start stop = .ok slice ↔ getRange bytes start stop = some slice := by
  unfold indexRange
  cases getRange bytes start stop with
  | none => simp
  | some b => simp

/-- The first newline is where the list can be cut in front of one. -/
theorem findIdx_newline {bytes : Bytes} {n : ℕ} :
    bytes.findIdx? (· == newline) = some n ↔
      ∃ l rest, bytes = l ++ newline :: rest ∧ newline ∉ l ∧ l.length = n := by
  constructor
  · intro h
    obtain ⟨hn, hat, hbefore⟩ := List.findIdx?_eq_some_iff_getElem.mp h
    have hchar : bytes[n] = newline := by simpa using hat
    refine ⟨bytes.take n, bytes.drop (n + 1), ?_, ?_, ?_⟩
    · conv_lhs => rw [← List.take_append_drop n bytes, List.drop_eq_getElem_cons hn, hchar]
    · intro hmem
      obtain ⟨i, hi, heq⟩ := List.mem_iff_getElem.mp hmem
      rw [List.length_take] at hi
      have hnot := hbefore i (by omega)
      rw [List.getElem_take] at heq
      simp [heq] at hnot
    · rw [List.length_take]
      omega
  · rintro ⟨l, rest, rfl, hfree, rfl⟩
    rw [List.findIdx?_append]
    have hnone : l.findIdx? (· == newline) = none := by
      rw [List.findIdx?_eq_none_iff]
      intro c hc
      have : c ≠ newline := fun h => hfree (h ▸ hc)
      simpa using this
    simp [hnone, List.findIdx?_cons]

/-- What is left of the file, seen through a window that ends at `stop`. -/
theorem drop_window {file : Bytes} {offset stop : ℕ} (h : offset ≤ stop)
    (hstop : stop ≤ file.length) :
    file.drop offset = (file.take stop).drop offset ++ file.drop stop := by
  conv_lhs => rw [← List.take_append_drop stop file]
  rw [List.drop_append_of_le_length]
  rw [List.length_take]
  omega

/-- **One line** is what stands before the next newline, within the limits: 64 bytes for a line, and a limit for
the header as a whole. -/
theorem line_eq_ok {file l : Bytes} {offset next : ℕ} :
    line file offset = .ok (l, next) ↔
      ∃ rest, file.drop offset = l ++ newline :: rest ∧ newline ∉ l ∧ l.length ≤ 64 ∧
        next = offset + (l.length + 1) ∧ next ≤ MAX_HEADER_BYTES := by
  unfold line
  simp only [bind_eq_ok, okOrInvalid_eq_ok, rejectIf_eq_ok, indexRange_eq_ok, getRange_eq_some,
    findIdx_newline]
  constructor
  · rintro ⟨remaining, ⟨hle, hmin, hrem⟩, n, ⟨l', rest, hcut, hfree, rfl⟩, -, hshort, value,
      ⟨-, -, rfl⟩, heq⟩
    have hvalue : ((remaining.take l'.length).drop 0) = l' := by simp [hcut]
    obtain ⟨rfl, rfl⟩ : l' = l ∧ offset + (l'.length + 1) = next := by
      rw [hvalue] at heq
      simpa [pure, Except.pure] using heq
    have hlen := congrArg List.length (hrem.symm.trans hcut)
    simp only [List.length_drop, List.length_take, List.length_append, List.length_cons] at hlen
    refine ⟨rest ++ file.drop (min file.length MAX_HEADER_BYTES), ?_, hfree, by omega, rfl,
      by omega⟩
    rw [drop_window hle hmin, ← hrem, hcut]
    simp
  · rintro ⟨rest, hcut, hfree, hshort, rfl, hlimit⟩
    have hlen := congrArg List.length hcut
    simp only [List.length_drop, List.length_append, List.length_cons] at hlen
    -- the window reaches behind the newline, because the file and the limit do
    have hrem : (file.take (min file.length MAX_HEADER_BYTES)).drop offset =
        l ++ newline :: rest.take (min file.length MAX_HEADER_BYTES - offset - l.length - 1) := by
      have hroom : min file.length MAX_HEADER_BYTES - offset =
          l.length + (min file.length MAX_HEADER_BYTES - offset - l.length - 1 + 1) := by omega
      rw [List.drop_take, hcut, hroom, List.take_length_add_append, List.take_succ_cons]
      congr 3
      omega
    have hvalue : ((file.take (min file.length MAX_HEADER_BYTES)).drop offset).length =
        min file.length MAX_HEADER_BYTES - offset := by
      rw [List.length_drop, List.length_take]
      omega
    refine ⟨_, ⟨by omega, by omega, rfl⟩, l.length, ⟨l, _, hrem, hfree, rfl⟩, (), by omega, l,
      ⟨by omega, by omega, ?_⟩, rfl⟩
    simp [hrem]

/-- Two lines in a row: the second starts where the first ended. -/
theorem drop_next {file l rest : Bytes} {offset : ℕ} (h : file.drop offset = l ++ newline :: rest) :
    file.drop (offset + (l.length + 1)) = rest := by
  rw [← List.drop_drop, h, List.drop_length_add_append, List.drop_succ_cons, List.drop_zero]

/-! ## 3. The lines of a stanza

The text of a line is compared with what the grammar writes: a fixed word, some arguments, or base64. -/

theorem decodeBase64_eq_ok {engine : Base64} (hb : engine.Canonical) {bytes : Bytes} {n : ℕ}
    {u : Unit} :
    decodeBase64 engine bytes n = .ok u ↔ ∃ v : Bytes, v.length = n ∧ bytes = engine.encode v := by
  unfold decodeBase64
  simp only [bind_eq_ok, okOrInvalid_eq_ok, rejectIf_eq_ok, not_or, not_not]
  constructor
  · rintro ⟨v, -, hlen, henc⟩
    exact ⟨v, hlen, henc.symm⟩
  · rintro ⟨v, hlen, rfl⟩
    exact ⟨v, hb.decode_encode v, hlen, rfl⟩

theorem printableWord_iff (w : Bytes) : printableWord w = true ↔ IsWord w := by
  unfold printableWord IsWord
  rw [Bool.not_eq_true', Bool.or_eq_false_iff, Bool.or_eq_false_iff]
  simp [List.length_pos_iff, and_assoc, Nat.succ_le_iff]

theorem IsWord.notMem_space {w : Bytes} (hw : IsWord w) : space ∉ w := by
  intro hmem
  have hle := (hw.2.2 _ hmem).1
  exact absurd hle (by decide)

theorem IsWord.notMem_newline {w : Bytes} (hw : IsWord w) : newline ∉ w := by
  intro hmem
  have hle := (hw.2.2 _ hmem).1
  exact absurd hle (by decide)

/-- The first line of a GREASE stanza. -/
theorem validateGreaseStart_eq_ok {start : Bytes} {u : Unit} :
    validateGreaseStart start = .ok u ↔
      ∃ tag arguments, IsWord tag ∧ arguments.length ≤ 4 ∧ (∀ a ∈ arguments, IsWord a) ∧
        start = greaseStart tag arguments := by
  unfold validateGreaseStart greaseStart
  simp only [bind_eq_ok, okOrInvalid_eq_ok, rejectIf_eq_ok, List.dropPrefix?_eq_some_iff,
    beq_iff_eq]
  constructor
  · rintro ⟨rest, ⟨_, rfl, rfl⟩, -, hcount, hrest⟩
    cases hf : rest.splitOn space with
    | nil => simp [hf] at hcount
    | cons first arguments =>
      simp only [hf, bind_eq_ok, okOrInvalid_eq_ok, rejectIf_eq_ok, List.dropSuffix?_eq_some_iff,
        beq_iff_eq] at hrest
      obtain ⟨tag, ⟨_, rfl, rfl⟩, hwords⟩ := hrest
      have hall : ∀ w ∈ tag :: arguments, IsWord w := by
        simpa [printableWord_iff] using hwords
      have hlen : arguments.length ≤ 4 := by
        simp only [hf, List.length_cons, not_or] at hcount
        omega
      refine ⟨tag, arguments, hall tag (by simp), hlen, fun a ha => hall a (by simp [ha]), ?_⟩
      rw [← hf, List.intercalate_splitOn]
  · rintro ⟨tag, arguments, htag, hcount, hwords, rfl⟩
    have hsplit : ([space].intercalate ((tag ++ ascii "-grease") :: arguments)).splitOn space =
        (tag ++ ascii "-grease") :: arguments := by
      refine List.splitOn_intercalate space ?_ (by simp)
      intro l hl
      rcases List.mem_cons.mp hl with rfl | hl
      · rw [List.mem_append, not_or]
        exact ⟨htag.notMem_space, by decide⟩
      · exact (hwords l hl).notMem_space
    refine ⟨_, ⟨_, rfl, rfl⟩, (), ?_, ?_⟩
    · rw [hsplit]
      simp
      omega
    · rw [hsplit]
      simp only [bind_eq_ok, okOrInvalid_eq_ok, rejectIf_eq_ok, List.dropSuffix?_eq_some_iff,
        beq_iff_eq]
      refine ⟨tag, ⟨_, rfl, rfl⟩, ?_⟩
      simpa [printableWord_iff] using ⟨htag, hwords⟩

/-! ## 4. The inner loop

The body of a GREASE stanza is wrapped at 64 characters. The loop reads lines until one is shorter. -/

theorem wrap_short {text : Bytes} (h : text.length < 64) : wrap text = text ++ [newline] := by
  rw [wrap, if_pos h]

theorem wrap_full {part : Bytes} (h : part.length = 64) (text : Bytes) :
    wrap (part ++ text) = part ++ newline :: wrap text := by
  rw [wrap, if_neg (by rw [List.length_append]; omega), ← h, List.take_left, List.drop_left]

/-- A line for every 64 characters, and one more. -/
theorem wrap_length (text : Bytes) : (wrap text).length = text.length + text.length / 64 + 1 := by
  fun_induction wrap text with
  | case1 text h =>
    rw [List.length_append, Nat.div_eq_of_lt h]
    rfl
  | case2 text h ih =>
    rw [List.length_append, List.length_cons, ih, List.length_take, List.length_drop]
    omega

/-- **Downwards**: what was collected stands in the file, wrapped. A line of 64 bytes is followed by another one,
which may be empty. -/
theorem greaseBody_sound {file : Bytes} {fuel : ℕ} {encoded encoded' : Bytes} {offset next : ℕ}
    (h : greaseBody file fuel encoded offset = .ok (encoded', next)) :
    ∃ text rest, encoded' = encoded ++ text ∧ file.drop offset = wrap text ++ rest ∧
      next = offset + (wrap text).length := by
  induction fuel generalizing encoded offset with
  | zero => cases h
  | succ fuel ih =>
    unfold greaseBody at h
    simp only [bind_eq_ok, rejectIf_eq_ok] at h
    obtain ⟨⟨part, middle⟩, hline, -, -, h⟩ := h
    obtain ⟨rest, hcut, hfree, hshort, rfl, -⟩ := line_eq_ok.mp hline
    by_cases hlast : part.length < 64
    · simp only [hlast, if_true] at h
      cases h
      refine ⟨part, rest, rfl, ?_, ?_⟩
      · rw [wrap_short hlast, hcut, List.append_assoc, List.singleton_append]
      · rw [wrap_short hlast, List.length_append]
        rfl
    · simp only [hlast, if_false] at h
      obtain ⟨text, rest', rfl, hcut', rfl⟩ := ih h
      rw [drop_next hcut] at hcut'
      have hfull := wrap_full (show part.length = 64 by omega) text
      refine ⟨part ++ text, rest', by rw [List.append_assoc], ?_, ?_⟩
      · rw [hfull, hcut, hcut', List.append_assoc, List.cons_append]
      · rw [hfull, List.length_append, List.length_cons]
        omega

/-- **Upwards**: wrapped text is read back, if it fits. The induction is on the text, a line at a time. -/
theorem greaseBody_complete {file text rest : Bytes} (encoded : Bytes) {fuel offset : ℕ}
    (hcut : file.drop offset = wrap text ++ rest) (hfree : newline ∉ text)
    (hsize : encoded.length + text.length ≤ 132)
    (hlimit : offset + (wrap text).length ≤ MAX_HEADER_BYTES) (hfuel : text.length < fuel) :
    greaseBody file fuel encoded offset =
      .ok (encoded ++ text, offset + (wrap text).length) := by
  induction fuel generalizing text encoded offset with
  | zero => omega
  | succ fuel ih =>
    unfold greaseBody
    simp only [bind_eq_ok, rejectIf_eq_ok]
    by_cases hlast : text.length < 64
    · rw [wrap_short hlast] at hcut hlimit ⊢
      have hline : line file offset = .ok (text, offset + (text.length + 1)) := by
        refine line_eq_ok.mpr ⟨rest, ?_, hfree, by omega, rfl, by simpa using hlimit⟩
        rw [hcut, List.append_assoc, List.singleton_append]
      refine ⟨_, hline, (), Nat.not_lt.mpr hsize, ?_⟩
      simp only [hlast, if_true, List.length_append, List.length_singleton]
      rfl
    · have hpart : (text.take 64).length = 64 := by
        rw [List.length_take]
        omega
      have hwrap := wrap_full hpart (text.drop 64)
      rw [List.take_append_drop] at hwrap
      rw [hwrap, List.append_assoc, List.cons_append] at hcut
      rw [hwrap, List.length_append, List.length_cons] at hlimit ⊢
      have hmem : ∀ c ∈ text.take 64, c ∈ text := fun c hc => List.mem_of_mem_take hc
      have hline : line file offset =
          .ok (text.take 64, offset + ((text.take 64).length + 1)) :=
        line_eq_ok.mpr ⟨_, hcut, fun h => hfree (hmem _ h), by omega, rfl, by omega⟩
      have hnext := drop_next hcut
      rw [hpart] at hnext
      refine ⟨_, hline, (), by dsimp only; omega, ?_⟩
      simp only [hpart, lt_irrefl, if_false]
      have hrest : greaseBody file fuel (encoded ++ text.take 64) (offset + (64 + 1)) =
          .ok (encoded ++ text.take 64 ++ text.drop 64,
            offset + (64 + 1) + (wrap (text.drop 64)).length) := ih _ hnext
        (fun h => hfree (List.mem_of_mem_drop h))
        (by simp only [List.length_append, List.length_drop]; omega) (by omega)
        (by rw [List.length_drop]; omega)
      rw [hrest, List.append_assoc, List.take_append_drop]
      congr 2
      omega

/-! ## 5. The stanza loop

The induction is on the rounds that the loop was given, for the number of stanzas that came before. -/

/-- The line that ends a header. -/
def macLine (engine : Base64) (mac : Bytes) : Bytes :=
  ascii "--- " ++ engine.encode mac ++ [newline]

/-- From `offset` to `next` the file is a list of stanzas and the line of the MAC, which together
with `native` and `grease` stanzas before them make a header. -/
def Laid (engine : Base64) (file : Bytes) (offset native grease next : ℕ) : Prop :=
  ∃ (stanzas : List Stanza) (mac rest : Bytes), (∀ s ∈ stanzas, s.WellFormed) ∧
    native + stanzas.countP Stanza.isNative = 8 ∧
    grease + stanzas.countP (fun s => !s.isNative) ≤ 1 ∧ mac.length = 32 ∧
    file.drop offset = stanzas.flatMap (Stanza.bytes engine) ++ macLine engine mac ++ rest ∧
    next = offset + (stanzas.flatMap (Stanza.bytes engine) ++ macLine engine mac).length

/-- One more stanza in front. -/
theorem Laid.cons {engine : Base64} {file : Bytes} {offset native grease next : ℕ} (s : Stanza)
    (rest : Bytes) (hs : s.WellFormed) (hcut : file.drop offset = s.bytes engine ++ rest)
    (h : Laid engine file (offset + (s.bytes engine).length) (native + s.isNative.toNat)
      (grease + (!s.isNative).toNat) next) :
    Laid engine file offset native grease next := by
  obtain ⟨stanzas, mac, rest', hall, hnative, hgrease, hmac, hcut', rfl⟩ := h
  have hrest : file.drop (offset + (s.bytes engine).length) = rest := by
    rw [← List.drop_drop, hcut, List.drop_left]
  refine ⟨s :: stanzas, mac, rest', ?_, ?_, ?_, hmac, ?_, ?_⟩
  · intro s' hs'
    rcases List.mem_cons.mp hs' with rfl | hs'
    · exact hs
    · exact hall s' hs'
  · rw [List.countP_cons]
    cases hn : s.isNative <;> simp [hn] at hnative ⊢ <;> omega
  · rw [List.countP_cons]
    cases hn : s.isNative <;> simp [hn] at hgrease ⊢ <;> omega
  · rw [hcut, ← hrest, hcut', List.flatMap_cons]
    simp only [List.append_assoc]
  · simp only [List.flatMap_cons, List.length_append]
    omega

theorem dropPrefix_eq_some {bytes lead rest : Bytes} :
    bytes.dropPrefix? lead = some rest ↔ bytes = lead ++ rest := by
  rw [List.dropPrefix?_eq_some_iff]
  simp

/-- A byte string that differs from `lead` somewhere does not start with it. -/
theorem dropPrefix_eq_none {bytes lead : Bytes} (i : ℕ) (hi : i < lead.length)
    (h : bytes[i]? ≠ lead[i]?) : bytes.dropPrefix? lead = none := by
  cases hd : bytes.dropPrefix? lead with
  | none => rfl
  | some rest =>
    rw [dropPrefix_eq_some.mp hd, List.getElem?_append_left hi] at h
    exact absurd rfl h

/-- **Downwards**: what the loop went through was laid out by the grammar. The engine has to be canonical, since
the code compares its `encode` with the text. -/
theorem stanzaLoop_sound {engine : Base64} (hb : engine.Canonical) {file : Bytes} {fuel : ℕ}
    {offset native next : ℕ} {grease : Bool}
    (h : stanzaLoop engine file fuel offset native grease = .ok next) :
    Laid engine file offset native grease.toNat next := by
  induction fuel generalizing offset native grease with
  | zero => cases h
  | succ fuel ih =>
    unfold stanzaLoop at h
    simp only [bind_eq_ok] at h
    obtain ⟨⟨start, middle⟩, hline, h⟩ := h
    obtain ⟨rest, hcut, hfree, hshort, rfl, -⟩ := line_eq_ok.mp hline
    cases hmac : start.dropPrefix? (ascii "--- ") with
    | some mac =>
      have hstart := dropPrefix_eq_some.mp hmac
      simp only [hmac, bind_eq_ok, decodeBase64_eq_ok hb, rejectIf_eq_ok, not_not] at h
      obtain ⟨-, ⟨v, hv, rfl⟩, -, hnative, hnext⟩ := h
      cases hnext
      refine ⟨[], v, rest, by simp, hnative, ?_, hv, ?_, ?_⟩
      · cases grease <;> simp
      · rw [hcut, hstart]
        simp [macLine]
      · rw [hstart]
        simp [macLine]
        rfl
    | none =>
      cases hnative : start.dropPrefix? (ascii "-> X25519 ") with
      | some ephemeral =>
        have hstart := dropPrefix_eq_some.mp hnative
        simp only [hmac, hnative, bind_eq_ok, decodeBase64_eq_ok hb, rejectIf_eq_ok] at h
        obtain ⟨-, -, -, ⟨v, hv, rfl⟩, ⟨body, behind⟩, hline', -, ⟨w, hw, hbody⟩, hloop⟩ := h
        obtain ⟨rest', hcut', -, -, rfl, -⟩ := line_eq_ok.mp hline'
        dsimp only at hbody hloop hcut'
        have hall : start ++ newline :: body ++ [newline] = (Stanza.native v w).bytes engine := by
          rw [hstart, hbody]
          simp [Stanza.bytes]
        refine Laid.cons (.native v w) rest' ⟨hv, hw⟩ ?_ ?_
        · rw [← hall, hcut, ← drop_next hcut, hcut']
          simp
        · have hlen := congrArg List.length hall
          simp only [List.length_append, List.length_cons, List.length_nil] at hlen
          have hoffset : offset + ((Stanza.native v w).bytes engine).length =
              offset + (start.length + 1) + (body.length + 1) := by omega
          rw [hoffset]
          exact ih hloop
      | none =>
        simp only [hmac, hnative, bind_eq_ok, rejectIf_eq_ok, okOrInvalid_eq_ok,
          validateGreaseStart_eq_ok] at h
        obtain ⟨-, hfirst, -, ⟨tag, arguments, htag, hcount, hwords, rfl⟩, ⟨encoded, behind⟩, hbody,
          decoded, -, -, hcanon, hloop⟩ := h
        obtain ⟨text, rest', htext, hcut', hbehind⟩ := greaseBody_sound hbody
        rw [List.nil_append] at htext
        dsimp only at hcut' hcanon hloop
        simp only [not_or, not_lt, not_not] at hcanon
        have hbytes : (Stanza.grease tag arguments decoded).bytes engine =
            greaseStart tag arguments ++ newline :: wrap text := by
          rw [← htext, ← hcanon.2]
          simp [Stanza.bytes]
        refine Laid.cons (.grease tag arguments decoded) rest'
          ⟨htag, hcount, hwords, hcanon.1⟩ ?_ ?_
        · rw [hbytes, hcut, ← drop_next hcut, hcut', List.append_assoc, List.cons_append]
        · have hlen := congrArg List.length hbytes
          rw [List.length_append, List.length_cons] at hlen
          rw [hlen]
          have hseen : grease = false := by simpa using hfirst
          subst hseen hbehind
          have hoffset : offset + ((greaseStart tag arguments).length + ((wrap text).length + 1)) =
              offset + ((greaseStart tag arguments).length + 1) + (wrap text).length := by omega
          rw [hoffset]
          exact ih hloop

/-! ## 6. The limits are wide enough

For the converse the limits have to be met: every line of a header that is laid out is within the bound on a line,
and the whole header within the bound on the window in which it is looked for. -/

/-- Fields behind a separator are the first field and the others, each with its separator. -/
theorem intercalate_cons_eq (first : Bytes) (rest : List Bytes) :
    [space].intercalate (first :: rest) = first ++ rest.flatMap (space :: ·) := by
  induction rest generalizing first with
  | nil => simp
  | cons second rest ih =>
    rw [List.intercalate_cons_cons, ih second, List.flatMap_cons]
    simp

theorem arguments_length {arguments : List Bytes} (hwords : ∀ a ∈ arguments, IsWord a) :
    (arguments.flatMap (space :: ·)).length ≤ 9 * arguments.length := by
  induction arguments with
  | nil => simp
  | cons a arguments ih =>
    have hword := (hwords a (by simp)).2.1
    have hrest := ih fun b hb => hwords b (by simp [hb])
    rw [List.flatMap_cons, List.length_append, List.length_cons, List.length_cons]
    omega

theorem greaseStart_length {tag : Bytes} {arguments : List Bytes} (htag : IsWord tag)
    (hcount : arguments.length ≤ 4) (hwords : ∀ a ∈ arguments, IsWord a) :
    (greaseStart tag arguments).length ≤ 54 := by
  have hrest := arguments_length hwords
  have htag := htag.2.1
  have h₁ : (ascii "-> ").length = 3 := by decide
  have h₂ : (ascii "-grease").length = 7 := by decide
  rw [greaseStart, intercalate_cons_eq]
  simp only [List.length_append]
  omega

theorem greaseStart_notMem_newline {tag : Bytes} {arguments : List Bytes} (htag : IsWord tag)
    (hwords : ∀ a ∈ arguments, IsWord a) : newline ∉ greaseStart tag arguments := by
  have h₁ : newline ∉ ascii "-> " := by decide
  have h₂ : newline ∉ ascii "-grease" := by decide
  have h₃ : newline ≠ space := by decide
  rw [greaseStart, intercalate_cons_eq]
  simp only [List.mem_append, List.mem_flatMap, List.mem_cons, not_or, not_exists, not_and]
  exact ⟨h₁, ⟨htag.notMem_newline, h₂⟩, fun a ha => ⟨h₃, (hwords a ha).notMem_newline⟩⟩

section Limits

variable {engine : Base64} (hb : engine.Canonical)

include hb

theorem Base64.Canonical.notMem_newline (v : Bytes) : newline ∉ engine.encode v := by
  intro hmem
  have hle := (hb.encode_printable v _ hmem).1
  exact absurd hle (by decide)

/-- A stanza of either kind. -/
theorem Stanza.bytes_length {s : Stanza} (hs : s.WellFormed) :
    (s.bytes engine).length ≤ if s.isNative then 98 else 190 := by
  cases s with
  | native ephemeral wrapped =>
    have h₁ : (ascii "-> X25519 ").length = 10 := by decide
    have h₂ := hb.encode_length ephemeral
    have h₃ := hb.encode_length wrapped
    rw [hs.1] at h₂
    rw [hs.2] at h₃
    simp only [Stanza.bytes, Stanza.isNative, List.length_append, List.length_singleton, if_true]
    omega
  | grease tag arguments body =>
    obtain ⟨htag, hcount, hwords, hbody⟩ := hs
    have h₁ := greaseStart_length htag hcount hwords
    have h₂ := hb.encode_length body
    have h₃ := wrap_length (engine.encode body)
    simp only [Stanza.bytes, Stanza.isNative, List.length_append, List.length_singleton,
      Bool.false_eq_true, if_false]
    omega

theorem stanzas_length {stanzas : List Stanza} (hs : ∀ s ∈ stanzas, s.WellFormed) :
    (stanzas.flatMap (Stanza.bytes engine)).length ≤
      98 * stanzas.countP Stanza.isNative + 190 * stanzas.countP (fun s => !s.isNative) := by
  induction stanzas with
  | nil => simp
  | cons s stanzas ih =>
    have hfirst := Stanza.bytes_length hb (hs s (by simp))
    have hrest := ih fun s' hs' => hs s' (by simp [hs'])
    rw [List.flatMap_cons, List.length_append, List.countP_cons, List.countP_cons]
    cases hn : s.isNative with
    | false =>
      simp only [hn, Bool.false_eq_true, if_false] at hfirst
      simp only [Bool.false_eq_true, if_false, Bool.not_false, if_true]
      omega
    | true =>
      simp only [hn, if_true] at hfirst
      simp only [if_true, Bool.not_true, Bool.false_eq_true, if_false]
      omega

theorem macLine_length {mac : Bytes} (hmac : mac.length = 32) :
    (macLine engine mac).length = 48 := by
  have h₁ : (ascii "--- ").length = 4 := by decide
  have h₂ := hb.encode_length mac
  rw [hmac] at h₂
  simp only [macLine, List.length_append, List.length_singleton]
  omega

/-- **The longest header has 1044 bytes**, well below the limit of the scanner. -/
theorem Header.bytes_length {header : Header} (hh : header.WellFormed) :
    (header.bytes engine).length ≤ 1044 := by
  have h₁ : (ascii "age-encryption.org/v1").length = 21 := by decide
  have h₂ := stanzas_length hb hh.stanzas
  have h₃ := macLine_length hb hh.mac
  rw [hh.native] at h₂
  have h₄ := hh.grease
  simp only [macLine, List.length_append, List.length_singleton] at h₃
  simp only [Header.bytes, List.length_append, List.length_singleton]
  omega

/-- The loop takes a native stanza in one round. -/
theorem stanzaLoop_native {file rest ephemeral wrapped : Bytes} {fuel offset native : ℕ}
    {grease : Bool} (hs : (Stanza.native ephemeral wrapped).WellFormed) (hnative : native < 8)
    (hcut : file.drop offset = (Stanza.native ephemeral wrapped).bytes engine ++ rest)
    (hlimit : offset + ((Stanza.native ephemeral wrapped).bytes engine).length ≤ MAX_HEADER_BYTES) :
    stanzaLoop engine file (fuel + 1) offset native grease =
      stanzaLoop engine file fuel (offset + ((Stanza.native ephemeral wrapped).bytes engine).length)
        (native + 1) grease := by
  have h₁ : (ascii "-> X25519 ").length = 10 := by decide
  have h₂ := hb.encode_length ephemeral
  have h₃ := hb.encode_length wrapped
  rw [hs.1] at h₂
  rw [hs.2] at h₃
  simp only [Stanza.bytes, List.length_append, List.length_singleton] at hlimit
  have hfirst : file.drop offset = ascii "-> X25519 " ++ engine.encode ephemeral ++
      newline :: (engine.encode wrapped ++ newline :: rest) := by
    simpa [Stanza.bytes] using hcut
  have hline : line file offset = .ok (ascii "-> X25519 " ++ engine.encode ephemeral,
      offset + ((ascii "-> X25519 " ++ engine.encode ephemeral).length + 1)) := by
    refine line_eq_ok.mpr ⟨_, hfirst, ?_, ?_, rfl, ?_⟩
    · rw [List.mem_append, not_or]
      exact ⟨by decide, hb.notMem_newline ephemeral⟩
    · rw [List.length_append]
      omega
    · rw [List.length_append]
      omega
  have hline' := line_eq_ok.mpr ⟨rest, drop_next hfirst, hb.notMem_newline wrapped, by omega, rfl,
    show _ ≤ MAX_HEADER_BYTES by rw [List.length_append]; omega⟩
  have hmac : (ascii "-> X25519 " ++ engine.encode ephemeral).dropPrefix? (ascii "--- ") =
      none := by
    refine dropPrefix_eq_none 1 (by decide) ?_
    rw [List.getElem?_append_left (by decide)]
    decide
  have hkind : (ascii "-> X25519 " ++ engine.encode ephemeral).dropPrefix? (ascii "-> X25519 ") =
      some (engine.encode ephemeral) := dropPrefix_eq_some.mpr rfl
  have hdecode : ∀ v : Bytes, v.length = 32 → decodeBase64 engine (engine.encode v) 32 = .ok () :=
    fun v hv => (decodeBase64_eq_ok hb).mpr ⟨v, hv, rfl⟩
  have hslot : rejectIf (SLOT_COUNT < native + 1) = .ok () :=
    rejectIf_eq_ok.mpr (show ¬ 8 < native + 1 by omega)
  have hoffset : offset + ((ascii "-> X25519 " ++ engine.encode ephemeral).length + 1) +
      ((engine.encode wrapped).length + 1) =
      offset + ((Stanza.native ephemeral wrapped).bytes engine).length := by
    simp only [Stanza.bytes, List.length_append, List.length_singleton]
    omega
  rw [stanzaLoop]
  simp only [hline, hmac, hkind, hslot, hdecode _ hs.1, hdecode _ hs.2, hline', hoffset, bind,
    Except.bind]

/-- The loop takes a GREASE stanza in one round. -/
theorem stanzaLoop_grease {file rest tag body : Bytes} {arguments : List Bytes}
    {fuel offset native : ℕ} (hs : (Stanza.grease tag arguments body).WellFormed)
    (hcut : file.drop offset = (Stanza.grease tag arguments body).bytes engine ++ rest)
    (hlimit : offset + ((Stanza.grease tag arguments body).bytes engine).length ≤
      MAX_HEADER_BYTES) :
    stanzaLoop engine file (fuel + 1) offset native false =
      stanzaLoop engine file fuel
        (offset + ((Stanza.grease tag arguments body).bytes engine).length) native true := by
  obtain ⟨htag, hcount, hwords, hbody⟩ := hs
  have hstart := greaseStart_length htag hcount hwords
  have hencoded := hb.encode_length body
  have hwrapped := wrap_length (engine.encode body)
  simp only [Stanza.bytes, List.length_append, List.length_singleton] at hlimit
  have hfirst : file.drop offset =
      greaseStart tag arguments ++ newline :: (wrap (engine.encode body) ++ rest) := by
    simpa [Stanza.bytes] using hcut
  have hline := line_eq_ok.mpr ⟨_, hfirst, greaseStart_notMem_newline htag hwords, by omega, rfl,
    show _ ≤ MAX_HEADER_BYTES by omega⟩
  have hmac : (greaseStart tag arguments).dropPrefix? (ascii "--- ") = none := by
    refine dropPrefix_eq_none 1 (by decide) ?_
    rw [greaseStart, List.getElem?_append_left (by decide)]
    decide
  -- the tenth byte of a native line is a space, where this one still has its tag
  have hkind : (greaseStart tag arguments).dropPrefix? (ascii "-> X25519 ") = none := by
    refine dropPrefix_eq_none 9 (by decide) ?_
    have hlong : 6 < (tag ++ ascii "-grease").length := by
      have h₂ : (ascii "-grease").length = 7 := by decide
      rw [List.length_append]
      omega
    have hspace : space ∉ tag ++ ascii "-grease" := by
      rw [List.mem_append, not_or]
      exact ⟨htag.notMem_space, by decide⟩
    rw [greaseStart, intercalate_cons_eq, List.getElem?_append_right (by decide)]
    show ((tag ++ ascii "-grease") ++ _)[6]? ≠ some space
    rw [List.getElem?_append_left hlong]
    exact fun h => hspace (List.mem_of_getElem? h)
  have hvalid : validateGreaseStart (greaseStart tag arguments) = .ok () :=
    validateGreaseStart_eq_ok.mpr ⟨tag, arguments, htag, hcount, hwords, rfl⟩
  have hroom : (engine.encode body).length < file.length + 1 := by
    have hlen := congrArg List.length hfirst
    simp only [List.length_drop, List.length_append, List.length_cons] at hlen
    omega
  have hloop := greaseBody_complete [] (drop_next hfirst) (hb.notMem_newline body)
    (by rw [List.length_nil]; omega) (by omega) hroom
  have hcanon : rejectIf (99 < body.length ∨ engine.encode body ≠ engine.encode body) = .ok () :=
    rejectIf_eq_ok.mpr (by simpa using hbody)
  have hnew : rejectIf (false = true) = .ok () := rfl
  have hoffset : offset + ((greaseStart tag arguments).length + 1) +
      (wrap (engine.encode body)).length =
      offset + ((Stanza.grease tag arguments body).bytes engine).length := by
    simp only [Stanza.bytes, List.length_append, List.length_singleton]
    omega
  rw [stanzaLoop]
  simp only [hline, hmac, hkind, hnew, hvalid, hloop, List.nil_append, hb.decode_encode,
    okOrInvalid, hcanon, hoffset, bind, Except.bind]

/-- **Upwards**: the loop reads back what the grammar lays out, whichever way the eight native stanzas and the
GREASE stanza are ordered. -/
theorem stanzaLoop_complete {file rest mac : Bytes} {stanzas : List Stanza}
    {fuel offset native : ℕ} {grease : Bool} (hs : ∀ s ∈ stanzas, s.WellFormed)
    (hnative : native + stanzas.countP Stanza.isNative = 8)
    (hgrease : grease.toNat + stanzas.countP (fun s => !s.isNative) ≤ 1) (hmac : mac.length = 32)
    (hcut : file.drop offset = stanzas.flatMap (Stanza.bytes engine) ++ macLine engine mac ++ rest)
    (hlimit : offset + (stanzas.flatMap (Stanza.bytes engine) ++ macLine engine mac).length ≤
      MAX_HEADER_BYTES) (hfuel : stanzas.length < fuel) :
    stanzaLoop engine file fuel offset native grease =
      .ok (offset + (stanzas.flatMap (Stanza.bytes engine) ++ macLine engine mac).length) := by
  induction stanzas generalizing fuel offset native grease with
  | nil =>
    obtain ⟨fuel, rfl⟩ : ∃ n, fuel = n + 1 := ⟨fuel - 1, by simp at hfuel; omega⟩
    have hlen := macLine_length hb hmac
    rw [List.flatMap_nil, List.nil_append] at hcut hlimit ⊢
    rw [macLine, List.length_append, List.length_singleton] at hlen hlimit ⊢
    have hline : line file offset = .ok (ascii "--- " ++ engine.encode mac,
        offset + ((ascii "--- " ++ engine.encode mac).length + 1)) := by
      refine line_eq_ok.mpr ⟨rest, ?_, ?_, by omega, rfl, hlimit⟩
      · rw [hcut, macLine, List.append_assoc, List.singleton_append]
      · rw [List.mem_append, not_or]
        exact ⟨by decide, hb.notMem_newline mac⟩
    unfold stanzaLoop
    simp only [bind_eq_ok]
    refine ⟨_, hline, ?_⟩
    have hfront : (ascii "--- " ++ engine.encode mac).dropPrefix? (ascii "--- ") =
        some (engine.encode mac) := dropPrefix_eq_some.mpr rfl
    simp only [hfront, bind_eq_ok, decodeBase64_eq_ok hb, rejectIf_eq_ok, not_not]
    exact ⟨(), ⟨mac, hmac, rfl⟩, (), hnative, rfl⟩
  | cons s stanzas ih =>
    obtain ⟨fuel, rfl⟩ : ∃ n, fuel = n + 1 := ⟨fuel - 1, by simp at hfuel; omega⟩
    have hfirst := hs s (by simp)
    have hcut' : file.drop offset = s.bytes engine ++
        (stanzas.flatMap (Stanza.bytes engine) ++ macLine engine mac ++ rest) := by
      rw [hcut, List.flatMap_cons]
      simp only [List.append_assoc]
    have hlen : (s.bytes engine).length +
        (stanzas.flatMap (Stanza.bytes engine) ++ macLine engine mac).length =
        ((s :: stanzas).flatMap (Stanza.bytes engine) ++ macLine engine mac).length := by
      simp only [List.flatMap_cons, List.length_append]
      omega
    have hrest : file.drop (offset + (s.bytes engine).length) =
        stanzas.flatMap (Stanza.bytes engine) ++ macLine engine mac ++ rest := by
      rw [← List.drop_drop, hcut', List.drop_left]
    have hwf : ∀ s' ∈ stanzas, s'.WellFormed := fun s' hs' => hs s' (by simp [hs'])
    rw [List.length_cons] at hfuel
    cases s with
    | native ephemeral wrapped =>
      simp only [List.countP_cons, Stanza.isNative_native, if_true, Bool.not_true,
        Bool.false_eq_true, if_false] at hnative hgrease
      rw [stanzaLoop_native hb hfirst (by omega) hcut' (by omega),
        ih hwf (by omega) (by omega) hrest (by omega) (by omega)]
      congr 1
      omega
    | grease tag arguments body =>
      simp only [List.countP_cons, Stanza.isNative_grease, if_true, Bool.not_false,
        Bool.false_eq_true, if_false] at hnative hgrease
      obtain rfl : grease = false := by
        cases grease with
        | false => rfl
        | true =>
          rw [Bool.toNat_true] at hgrease
          omega
      have hnone : true.toNat + stanzas.countP (fun s => !s.isNative) ≤ 1 := by
        rw [Bool.toNat_false] at hgrease
        rw [Bool.toNat_true]
        omega
      rw [stanzaLoop_grease hb hfirst hcut' (by omega),
        ih hwf (by omega) hnone hrest (by omega) (by omega)]
      congr 1
      omega

end Limits

/-! ## 7. No panic, no endless loop

Every index that the scanner uses is in range, and every round consumes a byte at least, so on any input the
scanner ends with a result or with its own error. -/

theorem okOrInvalid_ensures {α : Type} (o : Option α) :
    Ensures (okOrInvalid o) (fun a => o = some a) (· = .invalid) := by
  cases o with
  | none => exact rfl
  | some a => exact rfl

theorem rejectIf_ensures (c : Prop) [Decidable c] :
    Ensures (rejectIf c) (fun _ => ¬ c) (· = .invalid) := by
  unfold rejectIf
  split
  · exact rfl
  · assumption

/-- In range, indexing does not panic. -/
theorem indexRange_eq {bytes : Bytes} {start stop : ℕ} (h : start ≤ stop)
    (hstop : stop ≤ bytes.length) :
    indexRange bytes start stop = .ok ((bytes.take stop).drop start) :=
  indexRange_eq_ok.mpr (getRange_eq_some.mpr ⟨h, hstop, rfl⟩)

theorem line_ensures (file : Bytes) (offset : ℕ) :
    Ensures (line file offset) (fun p => offset < p.2 ∧ p.2 ≤ file.length) (· = .invalid) := by
  refine ensures_iff.mpr ⟨fun p hp => ?_, fun e he => ?_⟩
  · obtain ⟨rest, hcut, -, -, hnext, -⟩ := line_eq_ok.mp hp
    have hlen := congrArg List.length hcut
    simp only [List.length_drop, List.length_append, List.length_cons] at hlen
    omega
  · refine Ensures.of_error (m := line file offset) (Q := fun _ => True) (E := (· = .invalid)) ?_ he
    refine (okOrInvalid_ensures _).bind fun remaining hr => ?_
    refine (okOrInvalid_ensures _).bind fun n hn => ?_
    refine (rejectIf_ensures _).bind fun _ hshort => ?_
    obtain ⟨l, rest, hcut, -, hlen⟩ := findIdx_newline.mp hn
    have hle : n ≤ remaining.length := by
      rw [hcut, List.length_append]
      omega
    rw [indexRange_eq (Nat.zero_le n) hle]
    trivial

/-- The inner loop ends: each line takes a byte of the file. -/
theorem greaseBody_ensures {file : Bytes} {fuel : ℕ} {encoded : Bytes} {offset : ℕ}
    (hoffset : offset ≤ file.length) (hfuel : file.length < offset + fuel) :
    Ensures (greaseBody file fuel encoded offset) (fun p => offset < p.2 ∧ p.2 ≤ file.length)
      (· = .invalid) := by
  induction fuel generalizing encoded offset with
  | zero => omega
  | succ fuel ih =>
    unfold greaseBody
    refine (line_ensures file offset).bind fun p hp => ?_
    refine (rejectIf_ensures _).bind fun _ _ => ?_
    split
    · exact hp
    · exact (ih hp.2 (by omega)).mono (fun q hq => ⟨by omega, hq.2⟩) fun _ h => h

theorem decodeBase64_ensures (engine : Base64) (bytes : Bytes) (n : ℕ) :
    Raises (· = .invalid) (decodeBase64 engine bytes n) :=
  (okOrInvalid_ensures _).bind fun _ _ =>
    (rejectIf_ensures _).mono (fun _ _ => trivial) fun _ h => h

theorem validateGreaseStart_ensures (start : Bytes) :
    Raises (· = .invalid) (validateGreaseStart start) := by
  unfold validateGreaseStart
  refine (okOrInvalid_ensures _).bind fun rest _ => ?_
  refine (rejectIf_ensures _).bind fun _ hcount => ?_
  cases hf : rest.splitOn space with
  | nil => simp [hf] at hcount
  | cons first arguments =>
    refine (okOrInvalid_ensures _).bind fun tag _ => ?_
    exact (rejectIf_ensures _).mono (fun _ _ => trivial) fun _ h => h

/-- The stanza loop ends for the same reason. -/
theorem stanzaLoop_ensures (engine : Base64) {file : Bytes} {fuel offset native : ℕ} {grease : Bool}
    (hoffset : offset ≤ file.length) (hfuel : file.length < offset + fuel) :
    Raises (· = .invalid) (stanzaLoop engine file fuel offset native grease) := by
  induction fuel generalizing offset native grease with
  | zero => omega
  | succ fuel ih =>
    unfold stanzaLoop
    refine (line_ensures file offset).bind fun ⟨start, middle⟩ hline => ?_
    dsimp only at hline ⊢
    cases start.dropPrefix? (ascii "--- ") with
    | some mac =>
      refine (decodeBase64_ensures engine mac 32).bind fun _ => ?_
      exact (rejectIf_ensures _).bind fun _ _ => trivial
    | none =>
      cases start.dropPrefix? (ascii "-> X25519 ") with
      | some ephemeral =>
        refine (rejectIf_ensures _).bind fun _ _ => ?_
        refine (decodeBase64_ensures engine ephemeral 32).bind fun _ => ?_
        refine (line_ensures file middle).bind fun ⟨body, behind⟩ hbody => ?_
        refine (decodeBase64_ensures engine body 32).bind fun _ => ?_
        exact ih hbody.2 (by dsimp only at hbody; omega)
      | none =>
        refine (rejectIf_ensures _).bind fun _ _ => ?_
        refine (validateGreaseStart_ensures start).bind fun _ => ?_
        refine (greaseBody_ensures hline.2 (by omega)).bind fun ⟨encoded, behind⟩ hbody => ?_
        refine (okOrInvalid_ensures _).bind fun decoded _ => ?_
        refine (rejectIf_ensures _).bind fun _ _ => ?_
        exact ih hbody.2 (by dsimp only at hbody; omega)

theorem validateHeader_ensures (engine : Base64) (file : Bytes) :
    Raises (· = .invalid) (validateHeader engine file) := by
  unfold validateHeader
  refine (line_ensures file 0).bind fun p hp => ?_
  refine (rejectIf_ensures _).bind fun _ _ => ?_
  exact stanzaLoop_ensures engine hp.2 (by omega)

/-- **Whatever the bytes are, the only failure is `Error::Invalid`.** No slice is out of range, and no loop runs
out of its bound. -/
theorem validateFrame_ensures (engine : Base64) (frame : Bytes) :
    Raises (· = .invalid) (validateFrame engine frame) := by
  unfold validateFrame
  refine (okOrInvalid_ensures _).bind fun bucket hbucket => ?_
  refine (rejectIf_ensures _).bind fun _ _ => ?_
  have hlong : FRAME_OVERHEAD ≤ frame.length := by
    by_contra h
    simp [h] at hbucket
  have hfour : 4 ≤ frame.length := le_trans (by decide) hlong
  rw [indexRange_eq (Nat.zero_le 4) hfour]
  refine (okOrInvalid_ensures _).bind fun stop _ => ?_
  refine (okOrInvalid_ensures _).bind fun file hfile => ?_
  have hstop := (getRange_eq_some.mp hfile).2.1
  rw [indexRange_eq hstop le_rfl]
  refine (rejectIf_ensures _).bind fun _ _ => ?_
  refine (validateHeader_ensures engine file).bind fun header => ?_
  exact (rejectIf_ensures _).bind fun _ _ => trivial

/-! ## 8. The header and the frame

Around the header stand a length and a padding of zeros, which makes the size of a frame one of a few. -/

/-- The header ends where the grammar says it does. -/
theorem validateHeader_eq_ok {engine : Base64} (hb : engine.Canonical) {file : Bytes} {n : ℕ} :
    validateHeader engine file = .ok n ↔
      ∃ (header : Header) (payload : Bytes), header.WellFormed ∧
        file = header.bytes engine ++ payload ∧ n = (header.bytes engine).length := by
  unfold validateHeader
  simp only [bind_eq_ok, rejectIf_eq_ok, not_not]
  constructor
  · rintro ⟨⟨version, offset⟩, hline, -, hversion, hloop⟩
    obtain ⟨rest, hcut, -, -, rfl, -⟩ := line_eq_ok.mp hline
    obtain ⟨stanzas, mac, rest', hall, hnative, hgrease, hmac, hcut', rfl⟩ :=
      stanzaLoop_sound hb hloop
    dsimp only at hversion hcut'
    rw [drop_next hcut] at hcut'
    rw [List.drop_zero] at hcut
    refine ⟨⟨stanzas, mac⟩, rest', ⟨hall, ?_, ?_, hmac⟩, ?_, ?_⟩
    · simpa using hnative
    · simpa using hgrease
    · rw [hcut, hcut', hversion]
      simp [Header.bytes, macLine]
    · dsimp only
      rw [hversion]
      simp only [Header.bytes, macLine, List.length_append, List.length_singleton]
      omega
  · rintro ⟨header, payload, hh, rfl, rfl⟩
    have hlen := Header.bytes_length hb hh
    have hbytes : header.bytes engine = ascii "age-encryption.org/v1" ++ newline ::
        (header.stanzas.flatMap (Stanza.bytes engine) ++ macLine engine header.mac) := by
      simp [Header.bytes, macLine]
    have hversion : (ascii "age-encryption.org/v1").length = 21 := by decide
    have hlen' := congrArg List.length hbytes
    rw [List.length_append, List.length_cons] at hlen'
    have hcount : header.stanzas.length ≤ 9 := by
      have hsplit := List.length_eq_countP_add_countP (l := header.stanzas) Stanza.isNative
      have hnative := hh.native
      have hgrease := hh.grease
      simp only [Bool.not_eq_true, Bool.decide_eq_false] at hsplit
      omega
    have hcut : (header.bytes engine ++ payload).drop 0 = ascii "age-encryption.org/v1" ++
        newline :: (header.stanzas.flatMap (Stanza.bytes engine) ++
          macLine engine header.mac ++ payload) := by
      rw [List.drop_zero, hbytes]
      simp
    have hline : line (header.bytes engine ++ payload) 0 = .ok (ascii "age-encryption.org/v1",
        0 + ((ascii "age-encryption.org/v1").length + 1)) :=
      line_eq_ok.mpr ⟨_, hcut, by decide, by decide, rfl, by decide⟩
    refine ⟨_, hline, (), rfl, ?_⟩
    dsimp only
    rw [stanzaLoop_complete hb hh.stanzas (by rw [hh.native]) (by simpa using hh.grease) hh.mac
      (drop_next hcut) (show _ ≤ 1536 by omega) (by rw [List.length_append]; omega), hlen']
    congr 1
    omega

/-- The length field, read and written. -/
theorem beNat_be32 {n : ℕ} (h : n < 2 ^ 32) : beNat (be32 n) = n := by
  simp only [beNat, be32, List.map_cons, List.map_nil, List.foldl_cons, List.foldl_nil,
    UInt8.toNat_ofNat']
  omega

theorem be32_beNat {bytes : Bytes} (h : bytes.length = 4) :
    be32 (beNat bytes) = bytes ∧ beNat bytes < 2 ^ 32 := by
  obtain ⟨a, b, c, d, rfl⟩ : ∃ a b c d, bytes = [a, b, c, d] := by
    match bytes, h with
    | [a, b, c, d], _ => exact ⟨a, b, c, d, rfl⟩
  have ha := a.toNat_lt
  have hb := b.toNat_lt
  have hc := c.toNat_lt
  have hd := d.toNat_lt
  have hbyte : ∀ (x : UInt8) (n : ℕ), n % 256 = x.toNat → UInt8.ofNat n = x := by
    intro x n hn
    rw [← UInt8.toNat_inj, UInt8.toNat_ofNat']
    exact hn
  simp only [beNat, be32, List.map_cons, List.map_nil, List.foldl_cons, List.foldl_nil]
  refine ⟨?_, by omega⟩
  rw [hbyte a _ (by omega), hbyte b _ (by omega), hbyte c _ (by omega), hbyte d _ (by omega)]

theorem be32_length (n : ℕ) : (be32 n).length = 4 := rfl

theorem any_ne_zero_iff (bytes : Bytes) :
    ¬ bytes.any (· != 0) ↔ bytes = List.replicate bytes.length 0 := by
  rw [List.eq_replicate_iff]
  simp

/-! ## 9. The result

Both directions put together, for arbitrary byte strings. -/

/-- **The frame parser accepts exactly its grammar.**  On every byte string it ends without a
panic; it returns a file exactly if the string is a frame that holds the file. -/
theorem validateFrame_exact {engine : Base64} (hb : engine.Canonical) (frame : Bytes) :
    (∀ file, validateFrame engine frame = .ok file ↔ IsFrame engine frame file) ∧
      ∀ e, validateFrame engine frame = .error e → e = .invalid := by
  refine ⟨fun file => ?_, fun e he => (validateFrame_ensures engine frame).of_error he⟩
  unfold validateFrame
  simp only [bind_eq_ok, okOrInvalid_eq_ok, rejectIf_eq_ok, indexRange_eq_ok, getRange_eq_some,
    validateHeader_eq_ok hb, not_not, any_ne_zero_iff]
  constructor
  · rintro ⟨bucket, hbucket, -, hmem, field, ⟨-, hfour, rfl⟩, stop, hstop, file',
      ⟨hle, hstop', hfile⟩, padding, ⟨-, -, rfl⟩, -, hzero, n,
      ⟨header, payload, hh, hbytes, rfl⟩, -, hlen, hret⟩
    cases hret
    obtain ⟨hover, rfl⟩ : FRAME_OVERHEAD ≤ frame.length ∧
        frame.length - FRAME_OVERHEAD = bucket := by
      simpa using hbucket
    have hsum : 4 + beNat (frame.take 4) = stop := by
      unfold usizeCheckedAdd at hstop
      simp only [List.drop_zero, Option.ite_none_right_eq_some, Option.some.injEq] at hstop
      exact hstop.2
    have hfield : (frame.take 4).length = 4 := by
      rw [List.length_take]
      omega
    have hfilelen : file.length = beNat (frame.take 4) := by
      rw [hfile, List.length_drop, List.length_take]
      omega
    have hfront : frame.take stop = frame.take 4 ++ file := by
      rw [hfile]
      conv_lhs => rw [← List.take_append_drop 4 (frame.take stop)]
      rw [List.take_take, Nat.min_eq_left hle]
    refine ⟨_, by simpa using hmem, header, payload, frame.length - stop, hh, ?_, hbytes, ?_, ?_⟩
    · have hparts := congrArg List.length hbytes
      rw [List.length_append] at hparts
      simp only [BODY_METADATA_BYTES] at hlen
      omega
    · rw [List.take_length, List.length_drop] at hzero
      rw [hfilelen, (be32_beNat hfield).1, ← hfront, ← hzero, List.take_append_drop]
    · show frame.length = 2048 + (frame.length - 2048)
      have hover : 2048 ≤ frame.length := hover
      omega
  · rintro ⟨bucket, hbucket, header, payload, padding, hh, hpayload, hfile, hframe, hlen⟩
    have hsmall : bucket ≤ 16384 := by
      simp only [TEXT_BUCKETS, List.mem_cons, List.not_mem_nil, or_false] at hbucket
      omega
    have hparts := congrArg List.length hframe
    simp only [List.length_append, be32_length, List.length_replicate] at hparts
    have htake : frame.take 4 = be32 file.length := by
      rw [hframe, List.append_assoc, List.take_left' (be32_length _)]
    have hnat := beNat_be32 (show file.length < 2 ^ 32 by omega)
    refine ⟨bucket, ?_, (), ?_, be32 file.length, ⟨by omega, by omega, ?_⟩, 4 + file.length, ?_,
      file, ⟨by omega, by omega, ?_⟩, List.replicate padding 0, ⟨by omega, by omega, ?_⟩, (), ?_,
      (header.bytes engine).length, ⟨header, payload, hh, hfile, rfl⟩, (), ?_, rfl⟩
    · have hover : FRAME_OVERHEAD ≤ frame.length := by
        show 2048 ≤ frame.length
        omega
      have hrest : frame.length - FRAME_OVERHEAD = bucket := by
        show frame.length - 2048 = bucket
        omega
      rw [if_pos hover, hrest]
    · simpa using hbucket
    · rw [List.drop_zero, htake]
    · rw [hnat, usizeCheckedAdd, if_pos (by omega)]
    · have hfront : frame.take (4 + file.length) = be32 file.length ++ file := by
        rw [hframe]
        exact List.take_left' (by rw [List.length_append, be32_length])
      rw [hfront, List.drop_left' (be32_length _)]
    · rw [List.take_length, hframe]
      exact (List.drop_left' (by rw [List.length_append, be32_length])).symm
    · simp
    · rw [hfile, List.length_append, hpayload]
      simp only [BODY_METADATA_BYTES]
      omega

/-! ### The standard alphabet, and a frame -/

section Sample

/-- The 64 digits: upper case, lower case, decimal, `+` and `/`. -/
def alphabet : Bytes :=
  ascii "ABCDEFGHIJKLMNOPQRSTUVWXYZabcdefghijklmnopqrstuvwxyz0123456789+/"

def digit (n : ℕ) : UInt8 := alphabet.getD n 0

def digitValue (c : UInt8) : Option ℕ := alphabet.findIdx? (· == c)

theorem digitValue_digit : ∀ n < 64, digitValue (digit n) = some n := by
  decide +kernel

theorem digit_printable : ∀ n < 64, 33 ≤ digit n ∧ digit n ≤ 126 := by
  decide +kernel

/-- Three bytes make four digits; what is left over makes two or three. -/
def standardEncode : Bytes → Bytes
  | a :: b :: c :: rest =>
    digit (a.toNat / 4) :: digit (a.toNat % 4 * 16 + b.toNat / 16) ::
      digit (b.toNat % 16 * 4 + c.toNat / 64) :: digit (c.toNat % 64) :: standardEncode rest
  | [a, b] =>
    [digit (a.toNat / 4), digit (a.toNat % 4 * 16 + b.toNat / 16), digit (b.toNat % 16 * 4)]
  | [a] => [digit (a.toNat / 4), digit (a.toNat % 4 * 16)]
  | [] => []

/-- The inverse, with the unused low bits required to be zero. -/
def standardDecode : Bytes → Option Bytes
  | p :: q :: r :: s :: rest => do
    let (p, q, r, s) := (← digitValue p, ← digitValue q, ← digitValue r, ← digitValue s)
    let tail ← standardDecode rest
    return UInt8.ofNat (p * 4 + q / 16) :: UInt8.ofNat (q % 16 * 16 + r / 4) ::
      UInt8.ofNat (r % 4 * 64 + s) :: tail
  | [p, q, r] => do
    let (p, q, r) := (← digitValue p, ← digitValue q, ← digitValue r)
    if r % 4 ≠ 0 then none
    return [UInt8.ofNat (p * 4 + q / 16), UInt8.ofNat (q % 16 * 16 + r / 4)]
  | [p, q] => do
    let (p, q) := (← digitValue p, ← digitValue q)
    if q % 16 ≠ 0 then none
    return [UInt8.ofNat (p * 4 + q / 16)]
  | [_] => none
  | [] => some []

def standardNoPad : Base64 := ⟨standardEncode, standardDecode⟩

theorem ofNat_eq {x : UInt8} {n : ℕ} (h : n = x.toNat) : UInt8.ofNat n = x := by
  rw [h, UInt8.ofNat_toNat]

theorem standardDecode_encode (v : Bytes) : standardDecode (standardEncode v) = some v := by
  fun_induction standardEncode v with
  | case1 a b c rest ih =>
    have ha := a.toNat_lt
    have hb := b.toNat_lt
    have hc := c.toNat_lt
    simp only [standardDecode, ih, digitValue_digit _ (show a.toNat / 4 < 64 by omega),
      digitValue_digit _ (show a.toNat % 4 * 16 + b.toNat / 16 < 64 by omega),
      digitValue_digit _ (show b.toNat % 16 * 4 + c.toNat / 64 < 64 by omega),
      digitValue_digit _ (show c.toNat % 64 < 64 by omega), Option.bind_eq_bind, Option.bind_some,
      Option.pure_def]
    rw [ofNat_eq (x := a) (by omega), ofNat_eq (x := b) (by omega), ofNat_eq (x := c) (by omega)]
  | case2 a b =>
    have ha := a.toNat_lt
    have hb := b.toNat_lt
    simp only [standardDecode, digitValue_digit _ (show a.toNat / 4 < 64 by omega),
      digitValue_digit _ (show a.toNat % 4 * 16 + b.toNat / 16 < 64 by omega),
      digitValue_digit _ (show b.toNat % 16 * 4 < 64 by omega), Option.bind_eq_bind,
      Option.bind_some, Option.pure_def]
    rw [if_neg (by omega), ofNat_eq (x := a) (by omega), ofNat_eq (x := b) (by omega)]
  | case3 a =>
    have ha := a.toNat_lt
    simp only [standardDecode, digitValue_digit _ (show a.toNat / 4 < 64 by omega),
      digitValue_digit _ (show a.toNat % 4 * 16 < 64 by omega), Option.bind_eq_bind,
      Option.bind_some, Option.pure_def]
    rw [if_neg (by omega), ofNat_eq (x := a) (by omega)]
  | case4 => rfl

theorem standardEncode_digits (v : Bytes) : ∀ c ∈ standardEncode v, ∃ n < 64, c = digit n := by
  fun_induction standardEncode v with
  | case1 a b c rest ih =>
    have ha := a.toNat_lt
    have hb := b.toNat_lt
    have hc := c.toNat_lt
    intro x hx
    simp only [List.mem_cons] at hx
    rcases hx with rfl | rfl | rfl | rfl | hx
    · exact ⟨_, by omega, rfl⟩
    · exact ⟨_, by omega, rfl⟩
    · exact ⟨_, by omega, rfl⟩
    · exact ⟨_, by omega, rfl⟩
    · exact ih x hx
  | case2 a b =>
    have ha := a.toNat_lt
    have hb := b.toNat_lt
    intro x hx
    simp only [List.mem_cons, List.not_mem_nil, or_false] at hx
    rcases hx with rfl | rfl | rfl
    · exact ⟨_, by omega, rfl⟩
    · exact ⟨_, by omega, rfl⟩
    · exact ⟨_, by omega, rfl⟩
  | case3 a =>
    have ha := a.toNat_lt
    intro x hx
    simp only [List.mem_cons, List.not_mem_nil, or_false] at hx
    rcases hx with rfl | rfl
    · exact ⟨_, by omega, rfl⟩
    · exact ⟨_, by omega, rfl⟩
  | case4 => simp

theorem standardEncode_length (v : Bytes) : (standardEncode v).length = (4 * v.length + 2) / 3 := by
  fun_induction standardEncode v with
  | case1 a b c rest ih =>
    simp only [List.length_cons, ih]
    omega
  | case2 a b => simp
  | case3 a => simp
  | case4 => rfl

theorem standardNoPad_canonical : standardNoPad.Canonical where
  decode_encode := standardDecode_encode
  encode_length := standardEncode_length
  encode_printable := by
    intro v c hc
    obtain ⟨n, hn, rfl⟩ := standardEncode_digits v c hc
    exact digit_printable n hn

def sampleSlot : Bytes :=
  ascii "-> X25519 " ++ List.replicate 43 65 ++ [newline] ++ List.replicate 43 65 ++ [newline]

def sampleFile : Bytes :=
  ascii "age-encryption.org/v1" ++ [newline] ++ ascii "-> a-grease b" ++ [newline] ++ ascii "AQ" ++
    [newline] ++ (List.replicate 8 sampleSlot).flatten ++ ascii "--- " ++ List.replicate 43 65 ++
    [newline] ++ List.replicate (16 + 85 + 1024 + 16) 7

def sampleFrame : Bytes :=
  be32 sampleFile.length ++ sampleFile ++ List.replicate (3072 - 4 - sampleFile.length) 0

theorem sampleFrame_accepted : IsFrame standardNoPad sampleFrame sampleFile :=
  ((validateFrame_exact standardNoPad_canonical sampleFrame).1 sampleFile).mp (by decide +kernel)

end Sample

end Rostra.Dm
