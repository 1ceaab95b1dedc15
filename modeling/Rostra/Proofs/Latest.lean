/-
# What a payload writes into the tables of latest values

Three tables keep the latest of something: the endpoints of an author, his profile, and the row of
each author, kind and auxiliary key.  Which of them a payload writes, and with what, is a function
of the payload alone (`nodeOf`, `profileOf`, `singletonRecordOf`); `Written` says that a processed
payload does exactly this, whatever its kind.

The kinds take different paths to the row they share.  A message or a device of the private
messages is refused when it is a singleton, a skipped post and a vote without the shape of one
return before the row, and every other kind reaches it when its content is readable.

The functions of section 2 are the specification. They look at a payload only, and so they cannot depend on what
came before it; that the code writes just this is shown once, kind by kind, and the convergence results for the
three tables use nothing else.
-/
import Rostra.Proofs.Votes

namespace Rostra.Db

open Rostra Outcome

/-! ## 1. The three tables

As in `Proofs/Reduction`, the tables are a part of the projections, and the other reducers are put aside. -/

/-- The tables of latest values. They have in common that the order of the payloads does not matter to them. -/
@[ext]
structure LatestPart where
  nodes : Table (RostraId × IrohNodeId) IrohNodeRecord
  profiles : Table RostraId (Latest IdSocialProfileRecord)
  singletons : SingletonRows

def latestPart (p : Projections) : LatestPart where
  nodes := p.idsNodes
  profiles := p.socialProfiles
  singletons := p.eventsSingletonsNew

section Latest

variable [Primitives]

/-- A post is in none of the three while its own projections are written. -/
theorem applySocialPostTx_latest (env : Env) (ctx : TxCtx) (p : Projections) (c : EventContent)
    (post : SocialPost) (replaced : Option ShortEventId) (now : Timestamp) :
    Ensures (applySocialPostTx env ctx p c post replaced now)
      (fun p' => latestPart p' = latestPart p) (fun _ => True) :=
  (applySocialPostTx_outside env ctx p c post replaced now).mono (fun _ h => (congrArg latestPart h :))
    fun _ h => h

theorem reduceFollow_latest (p : Projections) (c : EventContent) (f : Follow) :
    latestPart (reduceFollow p c f) = latestPart p := by
  unfold reduceFollow
  split
  · obtain ⟨u, v, w, x, heq⟩ := insertUnfollowTx_frame p c.event.event.author (orderOf c) f.followee
    rw [heq]
    rfl
  · obtain ⟨u, v, w, heq⟩ := insertFollowTx_frame p c.event.event.author (orderOf c) f
    rw [heq]
    rfl

omit [Primitives] in
theorem processSocialVoteTx_latest (p : Projections) (vote : SocialVoteProjection) (a : RostraId)
    (o : EventOrder) :
    Ensures (processSocialVoteTx p vote a o) (fun p' => latestPart p' = latestPart p)
      (fun _ => True) := by
  refine (processSocialVoteTx_frame p vote a o).mono (fun p' ⟨s, h⟩ => ?_) fun _ h => h
  rw [h]
  rfl

/-! ## 2. What a payload has for them

Functions of the header and the content. They decide what a payload offers before any table has been looked at. -/

/-- The node a payload announces. -/
def nodeOf (c : EventContent) : Option IrohNodeId :=
  if c.event.event.kind = EventKind.NODE_ANNOUNCEMENT then c.nodeAnnouncement? else none

/-- The profile a payload carries. -/
def profileOf (c : EventContent) : Option IdSocialProfileRecord :=
  if c.event.event.kind = EventKind.SOCIAL_PROFILE_UPDATE then
    c.socialProfileUpdate?.map fun content =>
      ⟨c.event.id, content.displayName, content.bio, content.avatar⟩
  else none

/-- The row a payload of this kind ends with: none, if it is refused or returns before the row. -/
def recordOfKind (c : EventContent) : Option EventSingletonRecord :=
  let kind := c.event.event.kind
  let plain : EventSingletonRecord := ⟨c.event.id, none⟩
  if kind = EventKind.DM_DEVICE ∨ kind = EventKind.DIRECT_MESSAGE then none
  else if kind = EventKind.FOLLOW ∨ kind = EventKind.UNFOLLOW then c.follow?.map fun _ => plain
  else if kind = EventKind.NODE_ANNOUNCEMENT then c.nodeAnnouncement?.map fun _ => plain
  else if kind = EventKind.SOCIAL_PROFILE_UPDATE then c.socialProfileUpdate?.map fun _ => plain
  else if kind = EventKind.SOCIAL_POST then (projectedPost c).map fun _ => plain
  else if kind = EventKind.SOCIAL_VOTE then (voteOf c).map fun vote => ⟨c.event.id, some vote⟩
  else if kind = EventKind.SHOUTBOX then c.shoutbox?.map fun _ => plain
  else some plain

/-- The row of a singleton event; other events have none. -/
def singletonRecordOf (c : EventContent) : Option EventSingletonRecord :=
  if c.event.event.isSingleton then recordOfKind c else none

/-- The row a singleton event competes for: one for each author, kind and auxiliary key. -/
def singletonKey (c : EventContent) : RostraId × EventKind × EventAuxKey :=
  (c.event.event.author, c.event.event.kind, c.event.event.keyAux)

/-- The tables after a payload was offered to them, all three at once and whatever its kind is. -/
def latestAfter (q : LatestPart) (c : EventContent) : LatestPart where
  nodes := (nodeOf c).elim q.nodes fun addr =>
    let existing := (q.nodes.get (c.event.event.author, addr)).getD ⟨c.event.event.timestamp, {}⟩
    let record := { existing with
      announcementTs := max existing.announcementTs c.event.event.timestamp }
    trimIrohNodesToLimitTx c.event.event.author (q.nodes.insert (c.event.event.author, addr) record)
  profiles := (profileOf c).elim q.profiles fun record =>
    insertLatestValueTx c.event.event.timestamp c.event.event.author record
      IdSocialProfileRecord.eventId q.profiles
  singletons := (singletonRecordOf c).elim q.singletons fun record =>
    insertLatestValueTx c.event.event.timestamp (singletonKey c) record
      EventSingletonRecord.eventId q.singletons

/-! ## 3. The inversion

The code is followed kind by kind to show that it writes just that. -/

/-- What the reducer of the kind leaves: all but the shared row, and the row that is to follow. -/
structure KindWritten (p : Projections) (c : EventContent)
    (r : Projections × Option EventSingletonRecord) : Prop where
  nodes : r.1.idsNodes = (latestAfter (latestPart p) c).nodes
  profiles : r.1.socialProfiles = (latestAfter (latestPart p) c).profiles
  singletons : r.1.eventsSingletonsNew = p.eventsSingletonsNew
  record : c.event.event.isSingleton = true → r.2 = recordOfKind c

/-- What a refused payload had for the tables: nothing, or at most the row of a post, a vote or a
shout that met an error of the database. -/
def RefusedLatest (c : EventContent) (e : ProcessEventError) : Prop :=
  nodeOf c = none ∧ profileOf c = none ∧ (e = .invalid → singletonRecordOf c = none)

theorem nodeOf_other {c : EventContent}
    (h : c.event.event.kind ≠ EventKind.NODE_ANNOUNCEMENT) : nodeOf c = none := if_neg h

theorem profileOf_other {c : EventContent}
    (h : c.event.event.kind ≠ EventKind.SOCIAL_PROFILE_UPDATE) : profileOf c = none := if_neg h

/-- A reducer that leaves the three tables alone. -/
theorem KindWritten.of_same {p p' : Projections} {c : EventContent}
    {record : Option EventSingletonRecord} (h : latestPart p' = latestPart p)
    (hn : c.event.event.kind ≠ EventKind.NODE_ANNOUNCEMENT)
    (hp : c.event.event.kind ≠ EventKind.SOCIAL_PROFILE_UPDATE)
    (hr : c.event.event.isSingleton = true → record = recordOfKind c) :
    KindWritten p c (p', record) := by
  refine ⟨?_, ?_, congrArg LatestPart.singletons h, hr⟩
  · unfold latestAfter
    rw [nodeOf_other hn]
    exact congrArg LatestPart.nodes h
  · unfold latestAfter
    rw [profileOf_other hp]
    exact congrArg LatestPart.profiles h

/-- A payload that is refused for what its kind finds in it. -/
theorem refusedLatest_of_record {c : EventContent} {e : ProcessEventError}
    (hn : c.event.event.kind ≠ EventKind.NODE_ANNOUNCEMENT)
    (hp : c.event.event.kind ≠ EventKind.SOCIAL_PROFILE_UPDATE)
    (hr : c.event.event.isSingleton = true → e = .invalid → recordOfKind c = none) : RefusedLatest c e := by
  refine ⟨nodeOf_other hn, profileOf_other hp, fun he => ?_⟩
  unfold singletonRecordOf
  split
  · next hs => exact hr hs he
  · rfl

/-- A decoder's value, or the refusal of a payload that has none. -/
theorem decodeOr_written {α β : Type} {o : Option α} {f : α → ProcessEventResult β} {Q : β → Prop}
    {c : EventContent} (hnone : o = none → RefusedLatest c .invalid)
    (hsome : ∀ a, o = some a → Ensures (f a) Q (RefusedLatest c)) :
    Ensures (decodeOr o >>= f) Q (RefusedLatest c) := by
  cases o with
  | none => exact hnone rfl
  | some a => exact hsome a rfl

/-- An error of the database is not the payload's. -/
theorem liftDb_written {α β : Type} {m : DbResult α} {f : α → ProcessEventResult β} {P : α → Prop}
    {Q : β → Prop} {c : EventContent} (hm : Ensures m P (fun _ => True))
    (hn : c.event.event.kind ≠ EventKind.NODE_ANNOUNCEMENT)
    (hp : c.event.event.kind ≠ EventKind.SOCIAL_PROFILE_UPDATE)
    (hf : ∀ a, P a → Ensures (f a) Q (RefusedLatest c)) : Ensures (liftDb m >>= f) Q (RefusedLatest c) := by
  cases m with
  | ok a => exact hf a hm
  | error e => exact refusedLatest_of_record hn hp fun _ he => by cases he

/-- The record of a kind, once the kind is known. -/
theorem recordOfKind_eq {c : EventContent} {k : EventKind} (hk : c.event.event.kind = k) :
    recordOfKind c =
      if k = EventKind.DM_DEVICE ∨ k = EventKind.DIRECT_MESSAGE then none
      else if k = EventKind.FOLLOW ∨ k = EventKind.UNFOLLOW then
        c.follow?.map fun _ => ⟨c.event.id, none⟩
      else if k = EventKind.NODE_ANNOUNCEMENT then c.nodeAnnouncement?.map fun _ => ⟨c.event.id, none⟩
      else if k = EventKind.SOCIAL_PROFILE_UPDATE then
        c.socialProfileUpdate?.map fun _ => ⟨c.event.id, none⟩
      else if k = EventKind.SOCIAL_POST then (projectedPost c).map fun _ => ⟨c.event.id, none⟩
      else if k = EventKind.SOCIAL_VOTE then (voteOf c).map fun vote => ⟨c.event.id, some vote⟩
      else if k = EventKind.SHOUTBOX then c.shoutbox?.map fun _ => ⟨c.event.id, none⟩
      else some ⟨c.event.id, none⟩ := by
  unfold recordOfKind
  rw [hk]

variable (env : Env) (ctx : TxCtx) (p : Projections) {c : EventContent} (now : Timestamp)

/-- A singleton among the private messages is refused. -/
theorem processDmTx_written {k : EventKind} (hk : c.event.event.kind = k)
    (h : k = EventKind.DM_DEVICE ∨ k = EventKind.DIRECT_MESSAGE) :
    Ensures (processDmTx env p c) (KindWritten p c) (RefusedLatest c) := by
  have hn : c.event.event.kind ≠ EventKind.NODE_ANNOUNCEMENT := by
    rw [hk]
    rcases h with rfl | rfl <;> decide
  have hp : c.event.event.kind ≠ EventKind.SOCIAL_PROFILE_UPDATE := by
    rw [hk]
    rcases h with rfl | rfl <;> decide
  have hrec : recordOfKind c = none := by rw [recordOfKind_eq hk, if_pos h]
  have hrefused : ∀ e, RefusedLatest c e := fun e => refusedLatest_of_record hn hp fun _ _ => hrec
  unfold processDmTx
  dsimp only
  split
  · exact hrefused _
  next hplain =>
  rw [Bool.or_eq_true, not_or] at hplain
  have hwritten : ∀ (p' : Projections) r, latestPart p' = latestPart p → KindWritten p c (p', r) :=
    fun p' r h' => .of_same h' hn hp fun hs => absurd hs hplain.1
  refine decodeOr_written (fun _ => hrefused _) fun bytes _ => ?_
  split
  · exact decodeOr_written (fun _ => hrefused _) fun a _ => hwritten _ _ rfl
  split
  · exact hwritten _ _ rfl
  · exact hrefused _

theorem processFollowTx_written {k : EventKind} (hk : c.event.event.kind = k)
    (h : k = EventKind.FOLLOW ∨ k = EventKind.UNFOLLOW) :
    Ensures (processFollowTx p c) (KindWritten p c) (RefusedLatest c) := by
  have hn : c.event.event.kind ≠ EventKind.NODE_ANNOUNCEMENT := by
    rw [hk]
    rcases h with rfl | rfl <;> decide
  have hp : c.event.event.kind ≠ EventKind.SOCIAL_PROFILE_UPDATE := by
    rw [hk]
    rcases h with rfl | rfl <;> decide
  have hrec : recordOfKind c = c.follow?.map fun _ => ⟨c.event.id, none⟩ := by
    rw [recordOfKind_eq hk]
    rcases h with rfl | rfl <;> rfl
  refine decodeOr_written (fun hnone => refusedLatest_of_record hn hp fun _ _ => ?_) fun f hf => ?_
  · rw [hrec, hnone]
    rfl
  · refine ensures_pure.mpr (.of_same (reduceFollow_latest p c f) hn hp fun _ => ?_)
    rw [hrec, hf]
    rfl

theorem processNodeAnnouncementTx_written
    (hk : c.event.event.kind = EventKind.NODE_ANNOUNCEMENT) :
    Ensures (processNodeAnnouncementTx p c) (KindWritten p c) (RefusedLatest c) := by
  have hp : c.event.event.kind ≠ EventKind.SOCIAL_PROFILE_UPDATE := by
    rw [hk]
    decide
  have hnode : nodeOf c = c.nodeAnnouncement? := if_pos hk
  have hrec : recordOfKind c = c.nodeAnnouncement?.map fun _ => ⟨c.event.id, none⟩ :=
    recordOfKind_eq hk
  refine decodeOr_written (fun hnone => ⟨hnode.trans hnone, profileOf_other hp, fun _ => ?_⟩)
    fun addr haddr => ensures_pure.mpr ⟨?_, ?_, rfl, fun _ => ?_⟩
  · unfold singletonRecordOf
    rw [hrec, hnone]
    exact ite_self none
  · unfold latestAfter
    rw [hnode, haddr]
    rfl
  · unfold latestAfter
    rw [profileOf_other hp]
    rfl
  · rw [hrec, haddr]
    rfl

theorem processProfileUpdateTx_written
    (hk : c.event.event.kind = EventKind.SOCIAL_PROFILE_UPDATE) :
    Ensures (processProfileUpdateTx p c) (KindWritten p c) (RefusedLatest c) := by
  have hn : c.event.event.kind ≠ EventKind.NODE_ANNOUNCEMENT := by
    rw [hk]
    decide
  have hprofile : profileOf c = c.socialProfileUpdate?.map fun content =>
      ⟨c.event.id, content.displayName, content.bio, content.avatar⟩ := if_pos hk
  have hrec : recordOfKind c = c.socialProfileUpdate?.map fun _ => ⟨c.event.id, none⟩ :=
    recordOfKind_eq hk
  refine decodeOr_written (fun hnone => ⟨nodeOf_other hn, by rw [hprofile, hnone]; rfl, fun _ => ?_⟩)
    fun content hcontent => ensures_pure.mpr ⟨?_, ?_, rfl, fun _ => ?_⟩
  · unfold singletonRecordOf
    rw [hrec, hnone]
    exact ite_self none
  · unfold latestAfter
    rw [nodeOf_other hn]
    rfl
  · unfold latestAfter
    rw [hprofile, hcontent]
    rfl
  · rw [hrec, hcontent]
    rfl

/-- A skipped post returns before the row. -/
theorem processSocialPostTx_written (hk : c.event.event.kind = EventKind.SOCIAL_POST) :
    Ensures (processSocialPostTx env ctx p c now) (KindWritten p c) (RefusedLatest c) := by
  have hn : c.event.event.kind ≠ EventKind.NODE_ANNOUNCEMENT := by
    rw [hk]
    decide
  have hp : c.event.event.kind ≠ EventKind.SOCIAL_PROFILE_UPDATE := by
    rw [hk]
    decide
  have hrec : recordOfKind c = (projectedPost c).map fun _ => ⟨c.event.id, none⟩ :=
    recordOfKind_eq hk
  refine decodeOr_written (fun hnone => refusedLatest_of_record hn hp fun _ _ => ?_) fun post hpost => ?_
  · rw [hrec, projectedPost_unreadable hnone]
    rfl
  · have hplanned := projectedPost_post hk hpost
    split
    · next hplan =>
      refine ensures_pure.mpr (.of_same rfl hn hp fun _ => ?_)
      rw [hrec, hplanned, if_pos hplan]
      rfl
    · next replaced hplan =>
      refine liftDb_written (applySocialPostTx_latest env ctx p c post replaced now) hn hp
        fun p' hp' => ensures_pure.mpr (.of_same hp' hn hp fun _ => ?_)
      rw [hrec, hplanned, hplan, if_neg nofun]
      rfl

/-- So does a vote without the shape of one. -/
theorem processVoteTx_written (hk : c.event.event.kind = EventKind.SOCIAL_VOTE) :
    Ensures (processVoteTx p c) (KindWritten p c) (RefusedLatest c) := by
  have hn : c.event.event.kind ≠ EventKind.NODE_ANNOUNCEMENT := by
    rw [hk]
    decide
  have hp : c.event.event.kind ≠ EventKind.SOCIAL_PROFILE_UPDATE := by
    rw [hk]
    decide
  have hrec : recordOfKind c = (voteOf c).map fun vote => ⟨c.event.id, some vote⟩ :=
    recordOfKind_eq hk
  have hvote : voteOf c = c.socialVote?.bind (shapedVote c.event) := if_pos hk
  refine decodeOr_written (fun hnone => refusedLatest_of_record hn hp fun _ _ => ?_)
    fun content hcontent => ?_
  · rw [hrec, hvote, hnone]
    rfl
  · rw [hcontent, Option.bind_some] at hvote
    split
    · next hshape =>
      refine ensures_pure.mpr (.of_same rfl hn hp fun _ => ?_)
      rw [hrec, hvote, hshape]
      rfl
    · next vote hshape =>
      refine liftDb_written (processSocialVoteTx_latest p vote _ _) hn hp
        fun p' hp' => ensures_pure.mpr (.of_same hp' hn hp fun _ => ?_)
      rw [hrec, hvote, hshape]
      rfl

theorem processShoutboxTx_written (hk : c.event.event.kind = EventKind.SHOUTBOX) :
    Ensures (processShoutboxTx env p c now) (KindWritten p c) (RefusedLatest c) := by
  have hn : c.event.event.kind ≠ EventKind.NODE_ANNOUNCEMENT := by
    rw [hk]
    decide
  have hp : c.event.event.kind ≠ EventKind.SOCIAL_PROFILE_UPDATE := by
    rw [hk]
    decide
  have hrec : recordOfKind c = c.shoutbox?.map fun _ => ⟨c.event.id, none⟩ := recordOfKind_eq hk
  refine decodeOr_written (fun hnone => refusedLatest_of_record hn hp fun _ _ => ?_) fun content hs => ?_
  · rw [hrec, hnone]
    rfl
  · refine liftDb_written (ensures_true _) hn hp
      fun _ _ => ensures_pure.mpr (.of_same rfl hn hp fun _ => ?_)
    rw [hrec, hs]
    rfl

theorem processKindTx_written :
    Ensures (processKindTx env ctx p c now) (KindWritten p c) (RefusedLatest c) := by
  unfold processKindTx
  dsimp only
  split
  · next hk => exact processDmTx_written env p rfl hk
  next hdm =>
  split
  · next hk => exact processFollowTx_written p rfl hk
  next hfollow =>
  split
  · next hk => exact processNodeAnnouncementTx_written p hk
  next hnode =>
  split
  · next hk => exact processProfileUpdateTx_written p hk
  next hprofile =>
  split
  · next hk => exact processSocialPostTx_written env ctx p now hk
  next hpost =>
  split
  · next hk => exact processVoteTx_written p hk
  next hvote =>
  split
  · next hk => exact processShoutboxTx_written env p now hk
  next hshout =>
  refine KindWritten.of_same rfl hnode hprofile fun _ => ?_
  rw [recordOfKind_eq rfl, if_neg hdm, if_neg hfollow, if_neg hnode, if_neg hprofile, if_neg hpost,
    if_neg hvote, if_neg hshout]
  rfl

/-- **The inversion**: a processed payload writes what it has for the tables, and nothing else. -/
theorem processEventContentInsertedTx_latest :
    Ensures (processEventContentInsertedTx env ctx p c now)
      (fun p' => latestPart p' = latestAfter (latestPart p) c) (RefusedLatest c) := by
  unfold processEventContentInsertedTx
  refine (processKindTx_written env ctx p now).bind fun ⟨p', record⟩ ⟨hnodes, hprofiles, hrows, hr⟩ => ?_
  by_cases hs : c.event.event.isSingleton = true
  · have hrec : singletonRecordOf c = record := (if_pos hs).trans (hr hs).symm
    have hrow : (latestAfter (latestPart p) c).singletons = record.elim p'.eventsSingletonsNew
        fun r => insertLatestValueTx c.event.event.timestamp (singletonKey c) r
          EventSingletonRecord.eventId p'.eventsSingletonsNew := by
      rw [show p'.eventsSingletonsNew = _ from hrows, ← hrec]
      rfl
    cases record with
    | none => exact LatestPart.ext hnodes hprofiles hrow.symm
    | some r =>
      refine ensures_pure.mpr ?_
      unfold insertSingletonTx
      rw [if_pos hs]
      exact LatestPart.ext hnodes hprofiles hrow.symm
  · have hrec : singletonRecordOf c = none := if_neg hs
    have hrow : (latestAfter (latestPart p) c).singletons = p'.eventsSingletonsNew := by
      rw [show p'.eventsSingletonsNew = _ from hrows]
      unfold latestAfter
      rw [hrec]
      rfl
    cases record with
    | none => exact LatestPart.ext hnodes hprofiles hrow.symm
    | some r =>
      refine ensures_pure.mpr ?_
      unfold insertSingletonTx
      rw [if_neg hs]
      exact LatestPart.ext hnodes hprofiles hrow.symm

/-- The tables after a payload, whatever became of it.  Only an error of the database can keep a
payload from a row it has something for, and then it is the row of the singletons. -/
theorem commit_latest (c : EventContent) :
    let q := latestPart (commit (processEventContentInsertedTx env ctx p c now) p)
    q.nodes = (latestAfter (latestPart p) c).nodes ∧
      q.profiles = (latestAfter (latestPart p) c).profiles ∧
      (q.singletons = (latestAfter (latestPart p) c).singletons ∨
        q.singletons = p.eventsSingletonsNew ∧
          ∃ e, processEventContentInsertedTx env ctx p c now = .error (.db e)) := by
  have hwritten := processEventContentInsertedTx_latest env ctx p (c := c) now
  cases hr : processEventContentInsertedTx env ctx p c now with
  | ok p' =>
    rw [commit_ok, hwritten.of_ok hr]
    exact ⟨rfl, rfl, .inl rfl⟩
  | error e =>
    obtain ⟨hn, hp, hs⟩ := hwritten.of_error hr
    rw [commit_error]
    unfold latestAfter
    rw [hn, hp]
    refine ⟨rfl, rfl, ?_⟩
    cases e with
    | db e => exact .inr ⟨rfl, e, rfl⟩
    | invalid =>
      rw [hs rfl]
      exact .inl rfl

omit p now in
/-- The state after one payload more. -/
theorem projectAll_concat (items : List (EventContent × Timestamp)) (i : EventContent × Timestamp) :
    projectAll env ctx (items ++ [i]) = commit (processEventContentInsertedTx env ctx
      (projectAll env ctx items) i.1 i.2) (projectAll env ctx items) := by
  rw [projectAll, run_append]
  rfl

end Latest

end Rostra.Db
