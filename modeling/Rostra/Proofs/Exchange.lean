/-
# Calls and their answers

A client writes a request, a node reads it, looks into its tables and answers, and the client reads the
answer: what comes out of that is what the tables of the node hold.

* `answered` is the round trip of any reading call, up to what its handler computes.
* `getEvent_answered` and `getHead_answered` say what the client of a node has in its hands.
* Content is verified while it is read, so of whatever a node sends only the payload of the header can come
  out.  `getEventContent_answered` says that what a node has processed does come out, and that neither side
  panics, although the node looks for the event in a later state than for its content.

The node and the client are the same program, so both ends are modelled code: nothing is assumed about the bytes in
between, except where a lemma says that they come from a node.
-/
import Rostra.Client.DownloadEvents
import Rostra.Client.RequestHandler
import Rostra.Proofs.Connection
import Rostra.Proofs.HeadUpdateBroadcaster
import Rostra.Proofs.Store

namespace Rostra.RequestHandler

open Rostra Db P2p Outcome Codec

/-! ## 1. Any call

A request is framed and written, read and taken apart, and the answer goes back the same way. What depends on the
kind of a call is what its handler computes. -/

theorem option_length {α : Type} {c : Codec α} {n : ℕ} (h : c.Sized n) (o : Option α) :
    ((Codec.option c).encode o).length ≤ n + 1 := by
  cases o with
  | none => exact Nat.le_add_left 1 n
  | some a =>
    show (1 :: c.encode a).length ≤ n + 1
    rw [List.length_cons, h a]

/-- A response fits, with room to spare. -/
theorem response_length (rpc : Rpc) (v : rpc.Response) : (rpc.response.encode v).length ≤ 224 := by
  cases rpc with
  | PING => exact (u64_length v).trans (by decide)
  | FEED_EVENT => exact (unit_sized v).le.trans (by decide)
  | GET_EVENT => exact (option_length signedEvent_sized v).trans (by decide)
  | GET_EVENT_CONTENT => exact (Nat.le_refl 1).trans (by decide)
  | WAIT_HEAD_UPDATE => exact (bytes_sized 16 v).le.trans (by decide)
  | GET_HEAD => exact (option_length (bytes_sized 16) v).trans (by decide)
  | WAIT_FOLLOWERS_NEW_HEADS => exact (rostraId_sized.pair signedEvent_sized v).le

/-- **A success is read as what was answered.** -/
theorem makeRpc_success (rpc : Rpc) (v : rpc.Response) (rest : Bytes) :
    makeRpc rpc (success rpc v ++ rest) = .ok (v, rest) := by
  have hcode : readSuccessErrorCode (success rpc v ++ rest) = .ok ((), writeMessage rpc.response v ++ rest) :=
    bind_ok.mpr ⟨[0], _, readExact_iff.mpr ⟨rfl, rfl⟩, rfl⟩
  have hlength : (rpc.response.encode v).length ≤ MAX_RESPONSE_SIZE := (response_length rpc v).trans (by decide)
  exact bind_ok.mpr ⟨(), _, hcode, readMessage_writeMessage (by decide) hlength⟩

/-- A call without data, in terms of its response. -/
theorem makeRpc_written (rpc : Rpc) (v : rpc.Response) : makeRpc rpc (success rpc v) = .ok (v, []) := by
  have h := makeRpc_success rpc v []
  rwa [List.append_nil] at h

/-- What a node reads of a client's request. -/
theorem readRequestRaw_request (rpc : Rpc) (v : rpc.Request) :
    readRequestRaw (rpcRequestToBytes rpc v) = .ok ((rpc.RPC_ID, rpc.request.encode v), []) := by
  have hid : rpc.RPC_ID.code < 256 ^ 2 := by cases rpc <;> decide
  refine readRequestRaw_iff.mpr ⟨?_, hid, (request_length rpc v).trans (by decide)⟩
  rw [List.append_nil]
  rfl

theorem withRequest_request (rpc : Rpc) (v : rpc.Request) (handler : rpc.Request → Reply) :
    withRequest rpc (rpc.request.encode v) handler = handler v := by
  unfold withRequest
  rw [decodeWhole_encode ((request_length rpc v).trans (by decide))]

section Exchange

variable [Primitives] [Transport] {D : Set VerifiedEvent} {env : Env}

section Handlers

variable (signatures : ShortEventId → Word 64) (t t' : EventTables) (random : ℕ)

omit [Primitives]

theorem respond_getEvent (id : Word 16) :
    respond signatures t t' random (rpcRequestToBytes .GET_EVENT id) =
      some ⟨success .GET_EVENT (getEvent signatures t id.1), .done⟩ := by
  unfold respond
  rw [readRequestRaw_request]
  exact congrArg some (withRequest_request .GET_EVENT id _)

theorem respond_getEventContent (id : Word 16) :
    respond signatures t t' random (rpcRequestToBytes .GET_EVENT_CONTENT id) =
      some (handleGetEventContent t t' (Rpc.GET_EVENT_CONTENT.request.encode id)) := by
  unfold respond
  rw [readRequestRaw_request]
  rfl

theorem respond_getHead (id : FixedRostraId) :
    respond signatures t t' random (rpcRequestToBytes .GET_HEAD id) =
      some ⟨success .GET_HEAD ((sampleHead (getHeadsEventsTx t id.1) random).map shortEventId), .done⟩ := by
  unfold respond
  rw [readRequestRaw_request]
  exact congrArg some (withRequest_request .GET_HEAD id _)

end Handlers

/-! ## 2. Envelopes and heads

The answer of a handler against the tables, and what a client makes of it. The download code reads the same answers
in its own terms, which are related to these. -/

/-- A client that makes one of the reading calls and reads the answer. -/
def Answered {α : Type} (read : RecvStream α) (reply : Option Reply) (result : Except RpcError α) : Prop :=
  ∃ r, reply = some r ∧ r.ending = .done ∧ (read r.written).map Prod.fst = result

variable (env) in
/-- **An envelope is fetched by its author and its id**: the client has the stored one, verified, or learns that
there is none, or that it is somebody else's. -/
theorem getEvent_answered (hcf : CollisionFree D) (hfits : ∀ v ∈ D, v.event.Fits) {ops : List Op}
    (hD : DeliveredFrom D ops) (signatures : ShortEventId → Word 64)
    (hsigned : ∀ id e, (reached env ops).ev.events.get id = some e →
      Transport.verifySignature e (signatures id) = true)
    (t' : EventTables) (random : ℕ) (author : RostraId) (id : Word 16) :
    Answered (P2p.getEvent author id.1)
      (respond signatures (reached env ops).ev t' random (rpcRequestToBytes .GET_EVENT id))
      (match (reached env ops).ev.events.get id.1 with
        | none => .ok none
        | some e => if e.author = author then .ok (some (.ofEvent e)) else .error (.eventVerification .authorMismatch)) := by
  have hkeyed := (Client.footing_reached env hcf ops hD).ground.1.keyed
  refine ⟨_, respond_getEvent .., rfl, ?_⟩
  have hread := makeRpc_written .GET_EVENT (getEvent signatures (reached env ops).ev id.1)
  cases he : (reached env ops).ev.events.get id.1 with
  | none =>
    have hanswer : getEvent signatures (reached env ops).ev id.1 = none := by
      unfold getEvent
      rw [he, Option.bind_none]
    rw [hanswer] at hread ⊢
    have hcall : P2p.getEvent author id.1 (success .GET_EVENT none) = .ok (none, []) :=
      (bind_of_ok hread).trans rfl
    rw [hcall]
    rfl
  | some e =>
    have hfit : e.Fits := hfits _ (hkeyed.mem he)
    have hanswer : getEvent signatures (reached env ops).ev id.1 = some (⟨e, hfit⟩, signatures id.1) := by
      unfold getEvent
      rw [he, Option.bind_some, dif_pos hfit]
    rw [hanswer] at hread ⊢
    dsimp only
    split
    · next hauthor =>
      have hverified : verifyResponse author id.1 (⟨e, hfit⟩, signatures id.1) = .ok (.ofEvent e) := by
        unfold verifyResponse
        have hsignature := hsigned id.1 e he
        simp [hauthor, hkeyed.id_eq he, hsignature]
      have hcall : P2p.getEvent author id.1 (success .GET_EVENT (some (⟨e, hfit⟩, signatures id.1))) =
          .ok (some (.ofEvent e), []) := by
        refine (bind_of_ok hread).trans ?_
        dsimp only
        rw [hverified]
        rfl
      rw [hcall]
      rfl
    · next hauthor =>
      have hrefused : verifyResponse author id.1 (⟨e, hfit⟩, signatures id.1) = .error .authorMismatch := by
        unfold verifyResponse
        exact if_pos fun h => hauthor h.symm
      have hcall : P2p.getEvent author id.1 (success .GET_EVENT (some (⟨e, hfit⟩, signatures id.1))) =
          .error (.eventVerification .authorMismatch) := by
        refine (bind_of_ok hread).trans ?_
        dsimp only
        rw [hrefused]
        rfl
      rw [hcall]
      rfl

/-- An answer as a download takes it: the event, and whether it is signed by its author. -/
def received (r : Bincode.SignedEvent) : DownloadEvents.SignedEvent := ⟨r.1.1, Transport.verifySignature r.1.1 r.2⟩

theorem verifyResponse_received (author : RostraId) (id : ShortEventId) (r : Bincode.SignedEvent) :
    DownloadEvents.verifyResponse author id (received r) = (P2p.verifyResponse author id r).toOption := by
  unfold DownloadEvents.verifyResponse P2p.verifyResponse received
  simp only [VerifiedEvent.ofEvent_event]
  by_cases hauthor : author = r.1.1.author
  · by_cases hid : (VerifiedEvent.ofEvent r.1.1).id = id
    · by_cases hsignature : Transport.verifySignature r.1.1 r.2 = true
      · simp [hauthor, hid, hsignature, Except.toOption]
      · simp [hauthor, hid, hsignature, Except.toOption]
    · simp [hauthor, hid, Except.toOption]
  · simp [hauthor, Except.toOption]

/-- **A download obtains what its calls give**: of the answer that a peer writes, the event that the client of the call
has in its hands is the one that the download takes. -/
theorem getEvent_received {author : RostraId} {id : Word 16} {s rest : Bytes} {v : VerifiedEvent} :
    P2p.getEvent author id.1 s = .ok (some v, rest) ↔ ∃ r, makeRpc .GET_EVENT s = .ok (some r, rest) ∧
      DownloadEvents.verifyResponse author id.1 (received r) = some v := by
  unfold P2p.getEvent
  rw [bind_ok]
  constructor
  · rintro ⟨o, s', hcall, hread⟩
    cases o with
    | none => cases hread
    | some r =>
      dsimp only at hread
      cases hverified : P2p.verifyResponse author id.1 r with
      | error e =>
        rw [hverified] at hread
        cases hread
      | ok v' =>
        rw [hverified] at hread
        cases hread
        refine ⟨r, hcall, ?_⟩
        rw [verifyResponse_received, hverified]
        rfl
  · rintro ⟨r, hcall, hverified⟩
    refine ⟨some r, rest, hcall, ?_⟩
    rw [verifyResponse_received] at hverified
    dsimp only
    cases hcase : P2p.verifyResponse author id.1 r with
    | error e =>
      rw [hcase] at hverified
      cases hverified
    | ok v' =>
      rw [hcase] at hverified
      cases hverified
      rfl

omit [Primitives] [Transport] in
theorem sampleHead_eq_none {heads : Finset ShortEventId} {random : ℕ} :
    sampleHead heads random = none ↔ heads = ∅ := by
  unfold sampleHead
  rw [List.getElem?_eq_none_iff, Finset.length_sort]
  constructor
  · intro h
    by_contra hne
    exact absurd (Nat.mod_lt random (Finset.card_pos.mpr (Finset.nonempty_iff_ne_empty.mpr hne))) (not_lt.mpr h)
  · rintro rfl
    exact Nat.zero_le _

omit [Primitives] [Transport] in
theorem sampleHead_mem {heads : Finset ShortEventId} {random : ℕ} {head : ShortEventId}
    (h : sampleHead heads random = some head) : head ∈ heads :=
  (Finset.mem_sort (· ≤ ·)).mp (List.mem_of_getElem? h)

omit [Primitives] [Transport] in
/-- Every head may be drawn. -/
theorem sampleHead_surjective {heads : Finset ShortEventId} {head : ShortEventId} (h : head ∈ heads) :
    ∃ random, sampleHead heads random = some head := by
  obtain ⟨i, hi, hget⟩ := List.mem_iff_getElem.mp ((Finset.mem_sort (· ≤ ·)).mpr h)
  refine ⟨i, ?_⟩
  have hlt : i < heads.card := by rwa [Finset.length_sort] at hi
  unfold sampleHead
  rw [Nat.mod_eq_of_lt hlt, List.getElem?_eq_getElem hi, hget]

variable (env) in
/-- **A head is drawn from the heads of the identity**, and every one of them may be; no head is answered only if
there is none. -/
theorem getHead_answered (hcf : CollisionFree D) (hids : ∀ v ∈ D, v.id < 256 ^ 16) {ops : List Op}
    (hD : DeliveredFrom D ops) (signatures : ShortEventId → Word 64) (t' : EventTables) (id : FixedRostraId) :
    (∀ random, ∃ answer : Option (Word 16),
      Answered getHead (respond signatures (reached env ops).ev t' random (rpcRequestToBytes .GET_HEAD id))
        (.ok answer) ∧
      (answer = none ↔ getHeadsEventsTx (reached env ops).ev id.1 = ∅) ∧
      ∀ head ∈ answer, head.1 ∈ getHeadsEventsTx (reached env ops).ev id.1) ∧
    ∀ head ∈ getHeadsEventsTx (reached env ops).ev id.1, ∃ random, ∃ answer : Word 16, answer.1 = head ∧
      Answered getHead (respond signatures (reached env ops).ev t' random (rpcRequestToBytes .GET_HEAD id))
        (.ok (some answer)) := by
  have hfooting := Client.footing_reached env hcf ops hD
  -- a head is the id of an envelope, so it fits
  have hfit : ∀ head ∈ getHeadsEventsTx (reached env ops).ev id.1, (shortEventId head).1 = head := by
    intro head hhead
    obtain ⟨e, he, -⟩ := hfooting.owned (id.1, head) (Client.mem_getHeadsEventsTx.mp hhead)
    obtain ⟨v, hv, rfl, -⟩ := hfooting.ground.1.keyed _ _ he
    exact Nat.mod_eq_of_lt (hids v hv)
  have hanswered : ∀ random, Answered getHead
      (respond signatures (reached env ops).ev t' random (rpcRequestToBytes .GET_HEAD id))
      (.ok ((sampleHead (getHeadsEventsTx (reached env ops).ev id.1) random).map shortEventId)) := by
    intro random
    refine ⟨_, respond_getHead .., rfl, ?_⟩
    show (makeRpc .GET_HEAD _).map Prod.fst = _
    rw [makeRpc_written]
    rfl
  constructor
  · intro random
    refine ⟨_, hanswered random, ?_, fun head hhead => ?_⟩
    · rw [Option.map_eq_none_iff, sampleHead_eq_none]
    · obtain ⟨head', hdrawn, rfl⟩ := Option.map_eq_some_iff.mp hhead
      rw [hfit _ (sampleHead_mem hdrawn)]
      exact sampleHead_mem hdrawn
  · intro head hhead
    obtain ⟨random, hdrawn⟩ := sampleHead_surjective hhead
    refine ⟨random, shortEventId head, hfit head hhead, ?_⟩
    have hrandom := hanswered random
    rwa [hdrawn] at hrandom

/-! ## 3. Content

A transfer of content is verified piece by piece, against the hash in the header that the client has. What can be
said of any node is therefore different from what can be said of one that runs this code. -/

/-- **Whatever a node sends**, the content that its client accepts is the payload of the header, and the client
does not panic. -/
theorem getEventContent_verified (hbao : BaoVerified) {v : VerifiedEvent} (hlen : 0 < v.event.contentLen)
    {s rest : Bytes} {out : Received} (h : P2p.getEventContent v s = .ok (out, rest)) :
    out = .content none ∨ ∃ c, out = .content (some c) ∧ c.event = v := by
  obtain ⟨found, s', -, h⟩ := bind_ok.mp h
  split at h
  · obtain ⟨content, s'', hread, h⟩ := bind_ok.mp h
    have hdecoded : Transport.baoDecode v.event.contentLen v.event.contentHash s' = some (content, s'') := by
      unfold trailer readBaoContent at hread
      cases hd : Transport.baoDecode v.event.contentLen v.event.contentHash s' with
      | none =>
        rw [hd] at hread
        cases hread
      | some r =>
        rw [hd] at hread
        cases hread
        rfl
    obtain ⟨hlength, hhash⟩ := hbao.verified _ _ _ _ _ hlen hdecoded
    have hmatches : contentMatches v (some content) = true := by simp [contentMatches, hlength, hhash]
    have hverify : VerifiedEventContent.verify v (some content) = some ⟨⟨v, some content⟩, hmatches⟩ := dif_pos hmatches
    rw [hverify] at h
    cases h
    exact .inr ⟨_, rfl, rfl⟩
  · cases h
    exact .inl rfl

/-- The payload of a header, on its way. -/
theorem getEventContent_encoded (hbao : BaoVerified) {v : VerifiedEvent} {b : Bytes} (hb : b ≠ [])
    (hlength : b.length = v.event.contentLen) (hhash : blake3 b = v.event.contentHash) :
    ∃ c : VerifiedEventContent, c.event = v ∧ c.content = some b ∧
      P2p.getEventContent v (success .GET_EVENT_CONTENT true ++ Transport.baoEncode b) = .ok (.content (some c), []) := by
  have hmatches : contentMatches v (some b) = true := by simp [contentMatches, hlength, hhash]
  refine ⟨⟨⟨v, some b⟩, hmatches⟩, rfl, rfl, (bind_of_ok (makeRpc_success .GET_EVENT_CONTENT true _)).trans ?_⟩
  have hdecoded := hbao.decode_encode b [] hb
  rw [List.append_nil, hlength, hhash] at hdecoded
  have hread : trailer (readBaoContent v.event.contentLen v.event.contentHash) (Transport.baoEncode b) =
      .ok (b, []) := by
    unfold trailer readBaoContent
    rw [hdecoded]
  rw [if_pos rfl]
  refine (bind_of_ok hread).trans ?_
  have hverify : VerifiedEventContent.verify v (some b) = some ⟨⟨v, some b⟩, hmatches⟩ := dif_pos hmatches
  rw [hverify]
  rfl

omit [Primitives] [Transport] in
/-- What is found as content belongs to a stored event. -/
theorem getEventContent_stored {t : EventTables} {id : ShortEventId} {b : Bytes}
    (h : Client.getEventContent t id = some b) : ∃ e, t.events.get id = some e := by
  unfold Client.getEventContent at h
  split at h
  · cases h
  · next e he => exact ⟨e, he⟩

/-- **A node never panics over content**: the event whose content it has found is still there when it looks for
it, whatever was committed in between. -/
theorem handleGetEventContent_never_panics (hcf : CollisionFree D) {ops ops' : List Op}
    (hD : DeliveredFrom D (ops ++ ops')) (reqMsg : Bytes) :
    (handleGetEventContent (reached env ops).ev (reached env (ops ++ ops')).ev reqMsg).ending ≠ .panicked := by
  unfold handleGetEventContent withRequest
  split
  · simp
  · next id hdecode =>
    dsimp only
    split
    · simp
    · next content hcontent =>
      obtain ⟨e, he⟩ := getEventContent_stored hcontent
      have hlater := (reached_later env hcf ops ops' hD).stored _ _ he
      rw [hlater]
      dsimp only
      split
      · simp
      · simp

omit [Transport] in
variable (env) in
/-- The payload of an event that was processed is in the store. -/
theorem reached_payload (hcf : CollisionFree D) (hh : HashSound) (hempty : ∀ v ∈ D, EmptyHashed v) {ops : List Op}
    (hD : DeliveredFrom D ops) {v : VerifiedEvent} (hstored : (reached env ops).ev.events.get v.id = some v.event)
    (hstate : (reached env ops).ev.eventsContentState.get v.id = none) (hlen : 0 < v.event.contentLen) :
    ∃ b, (reached env ops).ev.contentStore.get v.event.contentHash = some b ∧ b.length = v.event.contentLen ∧
      b ≠ [] ∧ blake3 b = v.event.contentHash := by
  have hkept := reached_keeps env (storeContext_keeps hh.injective (unambiguous_of_emptyHashed hh hempty)) hcf
    ⟨⟨balanced_empty, storeSound_empty D⟩, oversizedOut_empty⟩ ops hD
  obtain ⟨b, hb, hlength, -⟩ := hkept.2.1.2.readable v.id v.event hstored (classOf_eq_current.mpr hstate) hlen
  have hne : b ≠ [] := by
    rintro rfl
    rw [List.length_nil] at hlength
    omega
  refine ⟨b, hb, hlength, hne, ?_⟩
  rcases hkept.2.1.2.law _ b hb with h | ⟨hnil, -⟩
  · exact h
  · exact absurd hnil hne

variable (env) in
/-- **A payload that a node has processed reaches the client that asks for it**, and one that it does not have
is not promised.  Neither side panics, whatever is committed while the node answers, and nothing but the payload
of the header is taken for it. -/
theorem getEventContent_answered (hbao : BaoVerified) (hcf : CollisionFree D) (hh : HashSound)
    (hempty : ∀ v ∈ D, EmptyHashed v) (ops ops' : List Op) (hD : DeliveredFrom D (ops ++ ops'))
    (signatures : ShortEventId → Word 64) (random : ℕ) (v : VerifiedEvent) (hfits : v.event.Fits)
    (hid : v.id < 256 ^ 16) (hstored : (reached env ops).ev.events.get v.id = some v.event)
    (hlen : 0 < v.event.contentLen) :
    ∃ r, respond signatures (reached env ops).ev (reached env (ops ++ ops')).ev random
        (rpcRequestToBytes .GET_EVENT_CONTENT ⟨v.id, hid⟩) = some r ∧ r.ending ≠ .panicked ∧
      (Client.getEventContent (reached env ops).ev v.id = none →
        P2p.getEventContent v r.written = .ok (.content none, [])) ∧
      ((reached env ops).ev.eventsContentState.get v.id = none → ∃ c : VerifiedEventContent, c.event = v ∧
        c.content = Client.getEventContent (reached env ops).ev v.id ∧
        P2p.getEventContent v r.written = .ok (.content (some c), [])) ∧
      ∀ out rest, P2p.getEventContent v r.written = .ok (out, rest) →
        out = .content none ∨ ∃ c, out = .content (some c) ∧ c.event = v := by
  have hreply : handleGetEventContent (reached env ops).ev (reached env (ops ++ ops')).ev
      (Rpc.GET_EVENT_CONTENT.request.encode ⟨v.id, hid⟩) = _ := withRequest_request .GET_EVENT_CONTENT ⟨v.id, hid⟩ _
  refine ⟨_, respond_getEventContent .., handleGetEventContent_never_panics hcf hD _, fun hnone => ?_,
    fun hstate => ?_, fun out rest h => getEventContent_verified hbao hlen h⟩
  · rw [hreply]
    dsimp only
    rw [hnone]
    exact (bind_of_ok (makeRpc_written .GET_EVENT_CONTENT false)).trans rfl
  · obtain ⟨b, hb, hlength, hne, hhash⟩ := reached_payload env hcf hh hempty
      (fun o ho => hD o (List.mem_append_left _ ho)) hstored hstate hlen
    have hcontent : Client.getEventContent (reached env ops).ev v.id = some b := by
      unfold Client.getEventContent
      rw [hstored]
      dsimp only
      rw [hstate]
      exact hb
    have hlater := (reached_later env hcf ops ops' hD).stored _ _ hstored
    have hwritten : writeBaoContent b = .ok (Transport.baoEncode b) :=
      if_neg (not_le.mpr (by rw [hlength]; exact hfits.contentLen))
    obtain ⟨c, hc, hcb, hread⟩ := getEventContent_encoded hbao hne hlength hhash
    refine ⟨c, hc, by rw [hcontent, hcb], ?_⟩
    rw [hreply]
    dsimp only
    rw [hcontent]
    dsimp only
    rw [hlater]
    dsimp only
    rw [hwritten]
    exact hread

end Exchange

/-! ## 4. A node with one post

All three calls to one node. -/

section Sample

attribute [local instance] Primitives.reference Transport.reference

theorem reference_baoVerified : BaoVerified where
  decode_encode := by
    intro b rest _
    show (if b.length ≤ (b ++ rest).length ∧ blake3 ((b ++ rest).take b.length) = blake3 b then
      some ((b ++ rest).take b.length, (b ++ rest).drop b.length) else none) = some (b, rest)
    rw [if_pos ⟨by simp, by rw [List.take_left]⟩, List.take_left, List.drop_left]
  verified := by
    intro len hash s b rest _ h
    obtain ⟨⟨hlen, hhash⟩, h⟩ := ite_eq_iff.mp h |>.resolve_right (by rintro ⟨-, h⟩; cases h)
    cases h
    exact ⟨List.length_take_of_le hlen, hhash⟩

/-- The node has received a post with its payload. -/
def sampleServing : List Op := [.ingest [.payload samplePayload 5 {}]]

theorem sampleServing_brought {v : VerifiedEvent} (h : v ∈ envelopesOf sampleServing) : v = .ofEvent samplePost :=
  List.mem_singleton.mp h

theorem sampleServing_collisionFree : CollisionFree (envelopesOf sampleServing) := by
  intro v hv w hw _
  rw [sampleServing_brought hv, sampleServing_brought hw]

theorem samplePost_fits : samplePost.Fits := by constructor <;> decide

theorem sampleServing_stored : (reached sampleEnv sampleServing).ev.events.get 1 = some samplePost := by
  decide +kernel

/-- The post is fetched by its id. -/
theorem getEvent_answered_sampleServing :
    Answered (P2p.getEvent (toLex (1, 1)) 1)
      (respond (fun _ => ⟨1, by decide⟩) (reached sampleEnv sampleServing).ev {} 0
        (rpcRequestToBytes .GET_EVENT ⟨1, by decide⟩))
      (.ok (some (.ofEvent samplePost))) := by
  have h := getEvent_answered sampleEnv sampleServing_collisionFree
    (fun v hv => by rw [sampleServing_brought hv]; exact samplePost_fits)
    (deliveredFrom_envelopesOf sampleServing) (fun _ => ⟨1, by decide⟩)
    (fun id e he => by
      obtain ⟨v, hv, -, rfl⟩ := (Client.footing_reached sampleEnv sampleServing_collisionFree sampleServing
        (deliveredFrom_envelopesOf sampleServing)).ground.1.keyed _ _ he
      rw [sampleServing_brought hv]
      rfl) {} 0 (toLex (1, 1)) ⟨1, by decide⟩
  rw [sampleServing_stored] at h
  exact h

/-- It is the head of its author. -/
theorem getHead_answered_sampleServing :
    ∃ random, ∃ answer : Word 16, answer.1 = 1 ∧
      Answered getHead (respond (fun _ => ⟨1, by decide⟩) (reached sampleEnv sampleServing).ev {} random
        (rpcRequestToBytes .GET_HEAD ⟨toLex (1, 1), by decide⟩)) (.ok (some answer)) :=
  (getHead_answered sampleEnv sampleServing_collisionFree (fun v hv => by rw [sampleServing_brought hv]; decide)
    (deliveredFrom_envelopesOf sampleServing) (fun _ => ⟨1, by decide⟩) {} ⟨toLex (1, 1), by decide⟩).2 1
    (by decide +kernel)

/-- And its payload comes with it. -/
theorem getEventContent_answered_sampleServing :
    ∃ r, respond (fun _ => ⟨1, by decide⟩) (reached sampleEnv sampleServing).ev
        (reached sampleEnv (sampleServing ++ [])).ev 0
        (rpcRequestToBytes .GET_EVENT_CONTENT ⟨(VerifiedEvent.ofEvent samplePost).id, by decide⟩) = some r ∧
      ∃ c : VerifiedEventContent, c.content = some [0, 65] ∧
        P2p.getEventContent (.ofEvent samplePost) r.written = .ok (.content (some c), []) := by
  obtain ⟨r, hr, -, -, hprocessed, -⟩ := getEventContent_answered sampleEnv reference_baoVerified
    sampleServing_collisionFree reference_hashSound
    (fun v hv hzero => by
      rw [sampleServing_brought hv] at hzero
      cases hzero)
    sampleServing [] (deliveredFrom_envelopesOf (sampleServing ++ [])) (fun _ => ⟨1, by decide⟩) 0
    (.ofEvent samplePost) samplePost_fits (by decide) sampleServing_stored (by decide)
  obtain ⟨c, -, hc, hread⟩ := hprocessed (by decide +kernel)
  refine ⟨r, hr, c, hc.trans ?_, hread⟩
  decide +kernel

end Sample

end Rostra.RequestHandler
