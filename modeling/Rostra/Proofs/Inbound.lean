/-
# Limits of inbound connections

* A permit that is gone from a semaphore is held by a task, in every state (`Booked`): one step moves permits of
  one connection (`Booked.set`).
* `inbound_capped` are the limits, and that no interleaving loses a permit.
* `ordinary_admitted` is what the reserve is for: long polls, however many there are, do not keep out a call that
  is none.
* `inbound_refusals` says when anything is refused.

There are four kinds of permits: for connections, for the calls of one connection, for calls, and a reserve of
those. A semaphore is a number here; who holds a permit is read off the control states of the tasks.

A limit is a statement about every state, and an admission is a statement about a step; the second kind is what
tells a node that works from one that refuses everybody. Neither of them says anything about how long a call takes:
a finite call may hold its permit for ever, as far as these results are concerned, and the timeouts that end it are
elsewhere.
-/
import Rostra.Client.Inbound
import Rostra.Proofs.Connection

namespace Rostra.Inbound

open Rostra P2p

/-! ## 1. Who holds permits

The count of a connection goes over its calls, that of the world over its connections. -/

/-- The calls of a connection that hold their permits. -/
def InboundConnection.count (q : RpcTask → Bool) (c : InboundConnection) : ℕ :=
  tally (fun t => if t.running && q t then 1 else 0) c.rpcTasks

def InboundWorld.count (q : RpcTask → Bool) (w : InboundWorld) : ℕ := tally (·.count q) w.connections

/-- A connection that is open holds a permit. -/
def InboundConnection.opened (c : InboundConnection) : ℕ := if c.pc = .closed then 0 else 1

def InboundWorld.opened (w : InboundWorld) : ℕ := tally (·.opened) w.connections

/-- A call that is about to be taken on holds a permit of its connection. -/
def InboundConnection.asking (c : InboundConnection) : ℕ :=
  match c.pc with
  | .admitting .. => 1
  | _ => 0

def capacity : Pool → ℕ
  | .shared => MAX_CONCURRENT_INBOUND_RPCS - RESERVED_ORDINARY_INBOUND_RPCS
  | .reservedOrdinary => RESERVED_ORDINARY_INBOUND_RPCS

/-- The calls with a permit of the pool. -/
def ofPool (p : Pool) (t : RpcTask) : Bool := t.pool = p

/-- The reserve is not for long polls. -/
structure Reserved (c : InboundConnection) : Prop where
  tasks : ∀ t ∈ c.rpcTasks, t.pool = .reservedOrdinary → isLongPoll t.rpcId = false
  asking : ∀ id, c.pc = .admitting id .reservedOrdinary → isLongPoll id = false

/-- **Every permit that is out is held.** For each of the semaphores, the capacity is what is left in it and what
the tasks hold. -/
structure Booked (w : InboundWorld) : Prop where
  connections : w.admission.connections.Lends MAX_INBOUND_CONNECTIONS w.opened
  pools : ∀ p, (w.admission.pool p).Lends (capacity p) (w.count (ofPool p))
  own : ∀ c ∈ w.connections,
    c.semaphore.Lends MAX_CONCURRENT_RPCS_PER_CONNECTION (c.count (fun _ => true) + c.asking)
  reserved : ∀ c ∈ w.connections, Reserved c

variable {w : InboundWorld} {i : ℕ} {c : InboundConnection}

/-- **One connection moves**, and what it takes from a semaphore or gives back is what it holds more or less. -/
theorem Booked.set (h : Booked w) (hi : w.connections[i]? = some c) {a : InboundAdmission} {c' : InboundConnection}
    (hconnections : a.connections.permits + c'.opened = w.admission.connections.permits + c.opened)
    (hpools : ∀ p, (a.pool p).permits + c'.count (ofPool p) = (w.admission.pool p).permits + c.count (ofPool p))
    (hown : c'.semaphore.permits + (c'.count (fun _ => true) + c'.asking) =
      c.semaphore.permits + (c.count (fun _ => true) + c.asking))
    (hreserved : Reserved c → Reserved c') : Booked ⟨a, w.connections.set i c'⟩ := by
  have hmem : c ∈ w.connections := List.mem_of_getElem? hi
  refine ⟨?_, fun p => ?_, fun d hd => ?_, fun d hd => ?_⟩
  · have hold := h.connections
    have hset := tally_set (fun c : InboundConnection => c.opened) hi c'
    unfold Semaphore.Lends InboundWorld.opened at *
    dsimp only
    omega
  · have hold := h.pools p
    have hset := tally_set (fun c : InboundConnection => c.count (ofPool p)) hi c'
    have hp := hpools p
    unfold Semaphore.Lends InboundWorld.count at *
    dsimp only
    omega
  · rcases List.mem_or_eq_of_mem_set hd with hd | rfl
    · exact h.own d hd
    · have hold := h.own c hmem
      unfold Semaphore.Lends at *
      omega
  · rcases List.mem_or_eq_of_mem_set hd with hd | rfl
    · exact h.reserved d hd
    · exact hreserved (h.reserved c hmem)

@[simp] theorem pool_withPool_self (a : InboundAdmission) (s : Semaphore) (p : Pool) : (a.withPool s p).pool p = s := by
  cases p <;> rfl

theorem pool_withPool_ne {p q : Pool} (a : InboundAdmission) (s : Semaphore) (h : q ≠ p) :
    (a.withPool s p).pool q = a.pool q := by
  cases p with
  | shared =>
    cases q with
    | shared => exact absurd rfl h
    | reservedOrdinary => rfl
  | reservedOrdinary =>
    cases q with
    | shared => rfl
    | reservedOrdinary => exact absurd rfl h

@[simp] theorem connections_withPool (a : InboundAdmission) (s : Semaphore) (p : Pool) :
    (a.withPool s p).connections = a.connections := by
  cases p <;> rfl

theorem permits_of_tryAcquire {s s' : Semaphore} (h : s.tryAcquire = some s') : s'.permits + 1 = s.permits := by
  unfold Semaphore.tryAcquire at h
  split at h
  · cases h
  · cases h
    dsimp only
    omega

/-! ## 2. Steps

An action is the step of one connection, and what it can do to the connection is one of a few moves (`Moves`),
several of which are shared by different actions. -/

/-- A connection that only moves on: neither end of it is closed, and it asks for nothing. -/
theorem Booked.goto (h : Booked w) (hi : w.connections[i]? = some c) {pc : ConnectionPc} (hclosed : c.pc ≠ .closed)
    (hclosed' : pc ≠ .closed) (hasking : ({ c with pc := pc } : InboundConnection).asking = c.asking)
    (hreserved : ∀ id, pc = .admitting id .reservedOrdinary → isLongPoll id = false) : Booked (w.goto i c pc) := by
  refine h.set hi ?_ (fun p => rfl) ?_ fun hr => ⟨hr.tasks, hreserved⟩
  · unfold InboundConnection.opened
    rw [if_neg hclosed, if_neg hclosed']
  · rw [hasking]
    rfl

theorem Booked.close (h : Booked w) (hi : w.connections[i]? = some c) (hclosed : c.pc ≠ .closed)
    (hasking : c.asking = 0) : Booked (w.close i c) := by
  refine h.set hi ?_ (fun p => ?_) ?_ fun hr => ⟨hr.tasks, nofun⟩
  · unfold InboundConnection.opened
    rw [if_neg hclosed, if_pos rfl]
    rfl
  · cases p <;> rfl
  · rw [hasking]
    rfl

theorem Booked.request (h : Booked w) (hi : w.connections[i]? = some c) (hpc : c.pc = .reading) (id : RpcId) :
    Booked (w.request i c id).1 := by
  have hasking : c.asking = 0 := by
    unfold InboundConnection.asking
    rw [hpc]
  unfold InboundWorld.request
  split
  · exact h.goto hi (by rw [hpc]; nofun) (by nofun) hasking.symm (by nofun)
  · next s hs =>
    have hpermits := permits_of_tryAcquire hs
    refine h.set hi ?_ (fun p => rfl) ?_ fun hr => ⟨hr.tasks, fun id' hid => ?_⟩
    · unfold InboundConnection.opened
      rw [hpc]
      rfl
    · rw [hasking]
      show s.permits + (c.count (fun _ => true) + 1) = _
      omega
    · -- a long poll goes straight to the shared permits
      cases hlong : isLongPoll id with
      | true =>
        rw [hlong] at hid
        cases hid
      | false =>
        rw [hlong] at hid
        cases hid
        exact hlong

/-- A call that is spawned is counted where its permit comes from. -/
theorem count_spawned (c : InboundConnection) (q : RpcTask → Bool) (t : RpcTask) (ht : t.running = true)
    (pc : ConnectionPc) :
    ({ c with
        rpcTasks := c.rpcTasks ++ [t]
        pc := pc } : InboundConnection).count q = c.count q + if q t then 1 else 0 := by
  unfold InboundConnection.count
  rw [tally_append]
  simp [tally, ht]

theorem Booked.admitRpc (h : Booked w) (hi : w.connections[i]? = some c) {id : RpcId} {pool : Pool}
    (hpc : c.pc = .admitting id pool) : Booked (w.admitRpc i c id pool).1 := by
  have hasking : c.asking = 1 := by
    unfold InboundConnection.asking
    rw [hpc]
  have hopen : c.pc ≠ .closed := by
    rw [hpc]
    nofun
  unfold InboundWorld.admitRpc
  split
  · next s hs =>
    have hpermits := permits_of_tryAcquire hs
    refine h.set hi ?_ (fun p => ?_) ?_ fun hr => ⟨fun t ht hpool => ?_, nofun⟩
    · rw [connections_withPool]
      unfold InboundConnection.opened
      rw [if_neg hopen, if_neg (by nofun)]
    · rw [count_spawned c _ _ rfl]
      by_cases hp : p = pool
      · subst hp
        rw [pool_withPool_self]
        have hone : ofPool p { rpcId := id, pool := p } = true := decide_eq_true rfl
        rw [if_pos hone]
        omega
      · rw [pool_withPool_ne _ _ hp]
        have hnone : ofPool p { rpcId := id, pool := pool } = false := decide_eq_false (Ne.symm hp)
        rw [hnone]
        rfl
    · rw [count_spawned c _ _ rfl, hasking]
      rfl
    · rcases List.mem_append.mp ht with ht | ht
      · exact hr.tasks t ht hpool
      · cases List.mem_singleton.mp ht
        exact hr.asking id (by rw [hpc, ← show pool = Pool.reservedOrdinary from hpool])
  · split
    · exact h.goto hi hopen (by nofun) hasking.symm (by nofun)
    · refine h.set hi ?_ (fun p => rfl) ?_ fun hr => ⟨hr.tasks, nofun⟩
      · unfold InboundConnection.opened
        rw [if_neg hopen, if_neg (by nofun)]
      · rw [hasking]
        show c.semaphore.permits + 1 + (c.count (fun _ => true) + 0) = _
        omega

/-- A call that ends gives both its permits back. -/
theorem Booked.finish (h : Booked w) (hi : w.connections[i]? = some c) {k : ℕ} {t : RpcTask}
    (hk : c.rpcTasks[k]? = some t) (hrunning : t.running = true) :
    Booked (InboundWorld.goto
      { w with admission := w.admission.withPool (w.admission.pool t.pool).release t.pool } i
      { c with
        semaphore := c.semaphore.release
        rpcTasks := c.rpcTasks.set k { t with running := false } } c.pc) := by
  have hcount : ∀ q : RpcTask → Bool, ({ c with
      semaphore := c.semaphore.release
      rpcTasks := c.rpcTasks.set k { t with running := false } } : InboundConnection).count q +
        (if q t then 1 else 0) = c.count q := by
    intro q
    have hset := tally_set (fun t => if t.running && q t then 1 else 0) hk { t with running := false }
    unfold InboundConnection.count
    simp only [hrunning, Bool.true_and, Bool.false_and, Bool.false_eq_true, if_false, Nat.add_zero] at hset
    exact hset
  refine h.set hi ?_ (fun p => ?_) ?_ fun hr => ⟨fun t' ht' hpool => ?_, hr.asking⟩
  · rw [connections_withPool]
    rfl
  · have hone := hcount (ofPool p)
    by_cases hp : p = t.pool
    · subst hp
      rw [pool_withPool_self]
      rw [if_pos (show ofPool t.pool t = true from decide_eq_true rfl)] at hone
      show (w.admission.pool t.pool).permits + 1 + _ = _
      exact (Nat.add_assoc ..).trans (congrArg _ ((Nat.add_comm ..).trans hone))
    · rw [pool_withPool_ne _ _ hp]
      rw [if_neg (by rw [show ofPool p t = false from decide_eq_false (Ne.symm hp)]; nofun)] at hone
      exact congrArg _ hone
  · have hone := hcount fun _ => true
    rw [if_pos rfl] at hone
    have hsum : ∀ n, n + 1 = c.count (fun _ => true) → c.semaphore.permits + 1 + (n + c.asking) =
        c.semaphore.permits + (c.count (fun _ => true) + c.asking) := by
      intro n hn
      omega
    exact hsum _ hone
  · rcases List.mem_or_eq_of_mem_set ht' with ht' | rfl
    · exact hr.tasks t' ht' hpool
    · exact hr.tasks t (List.mem_of_getElem? hk) hpool

/-- A call that was returned had given back its permits before. -/
theorem Booked.next (h : Booked w) (hi : w.connections[i]? = some c) (hpc : c.pc = .accepting) {k : ℕ} {t : RpcTask}
    (hk : c.rpcTasks[k]? = some t) (hrunning : t.running = false) :
    Booked (w.goto i { c with rpcTasks := c.rpcTasks.eraseIdx k } .accepting) := by
  have hcount : ∀ q : RpcTask → Bool,
      ({ c with rpcTasks := c.rpcTasks.eraseIdx k } : InboundConnection).count q = c.count q := by
    intro q
    have herase := tally_eraseIdx (fun t => if t.running && q t then 1 else 0) hk
    unfold InboundConnection.count
    simpa [hrunning] using herase
  have hasking : c.asking = 0 := by
    unfold InboundConnection.asking
    rw [hpc]
  refine h.set hi ?_ (fun p => congrArg _ (hcount _)) ?_ fun hr => ⟨fun t' ht' => ?_, nofun⟩
  · unfold InboundConnection.opened
    rw [hpc]
  · rw [hasking]
    have hall := hcount fun _ => true
    exact congrArg (c.semaphore.permits + ·) hall
  · exact hr.tasks t' (List.mem_of_mem_eraseIdx ht')

theorem Booked.incoming (h : Booked w) {s : Semaphore} (hs : w.admission.connections.tryAcquire = some s) :
    Booked { w with
      admission := { w.admission with connections := s }
      connections := w.connections ++ [{}] } := by
  refine ⟨?_, fun p => ?_, fun c hc => ?_, fun c hc => ?_⟩
  · have hacquired := h.connections.acquire hs
    unfold InboundWorld.opened at hacquired ⊢
    rw [tally_append]
    exact hacquired
  · have hold := h.pools p
    unfold InboundWorld.count at hold ⊢
    rw [tally_append]
    cases p with
    | shared => exact hold
    | reservedOrdinary => exact hold
  · rcases List.mem_append.mp hc with hc | hc
    · exact h.own c hc
    · cases List.mem_singleton.mp hc
      rfl
  · rcases List.mem_append.mp hc with hc | hc
    · exact h.reserved c hc
    · cases List.mem_singleton.mp hc
      exact ⟨nofun, nofun⟩

/-- **What a move of one connection can be**, whichever action it is the step of. The labels tell which refusals it
shows. -/
inductive Moves (w : InboundWorld) (i : ℕ) (c : InboundConnection) : InboundWorld × List InboundLabel → Prop
  | goto (pc : ConnectionPc) (hopen : c.pc ≠ .closed) (hasking : c.asking = 0) (hpc : pc = .accepting ∨ pc = .reading) :
    Moves w i c (w.goto i c pc, [])
  | close (hopen : c.pc ≠ .closed) (hasking : c.asking = 0) : Moves w i c (w.close i c, [])
  | request (id : RpcId) (hpc : c.pc = .reading) : Moves w i c (w.request i c id)
  | admitRpc (id : RpcId) (pool : Pool) (hpc : c.pc = .admitting id pool) : Moves w i c (w.admitRpc i c id pool)
  | finish (k : ℕ) (t : RpcTask) (hk : c.rpcTasks[k]? = some t) (hrunning : t.running = true) :
    Moves w i c (InboundWorld.goto
      { w with admission := w.admission.withPool (w.admission.pool t.pool).release t.pool } i
      { c with
        semaphore := c.semaphore.release
        rpcTasks := c.rpcTasks.set k { t with running := false } } c.pc, [])
  | next (k : ℕ) (t : RpcTask) (hpc : c.pc = .accepting) (hk : c.rpcTasks[k]? = some t) (hrunning : t.running = false) :
    Moves w i c (w.goto i { c with rpcTasks := c.rpcTasks.eraseIdx k } .accepting, [])

theorem asking_of_pc {pc : ConnectionPc} (hpc : c.pc = pc) (h : ∀ id pool, pc ≠ .admitting id pool) : c.asking = 0 := by
  unfold InboundConnection.asking
  split
  · next id pool hadmitting => exact absurd (hpc.symm.trans hadmitting) (h id pool)
  · rfl

theorem move_cases {act : InboundAct} {r : InboundWorld × List InboundLabel} (hmove : w.move i c act = some r) :
    Moves w i c r := by
  unfold InboundWorld.move at hmove
  cases act with
  | incoming => cases hmove
  | handshake j ok =>
    dsimp only at hmove
    split at hmove
    · next hpc =>
      have hopen : c.pc ≠ .closed := by
        rw [hpc]
        nofun
      cases ok with
      | false =>
        cases hmove
        exact .close hopen (asking_of_pc hpc nofun)
      | true =>
        cases hmove
        exact .goto _ hopen (asking_of_pc hpc nofun) (.inl rfl)
    · cases hmove
  | acceptBi j ok =>
    dsimp only at hmove
    split at hmove
    · next hpc =>
      have hopen : c.pc ≠ .closed := by
        rw [hpc]
        nofun
      cases ok with
      | false =>
        cases hmove
        exact .close hopen (asking_of_pc hpc nofun)
      | true =>
        cases hmove
        exact .goto _ hopen (asking_of_pc hpc nofun) (.inr rfl)
    · cases hmove
  | header j bytes =>
    dsimp only at hmove
    split at hmove
    · next id _ _ hpc _ =>
      cases hmove
      exact .request id hpc
    · next hpc _ =>
      cases hmove
      exact .close (by rw [hpc]; nofun) (asking_of_pc hpc nofun)
    · cases hmove
  | admitting j =>
    dsimp only at hmove
    split at hmove
    · next id pool hpc =>
      cases hmove
      exact .admitRpc id pool hpc
    · cases hmove
  | idleTimeout j =>
    dsimp only at hmove
    split at hmove
    · next hpc _ =>
      cases hmove
      exact .close (by rw [hpc]; nofun) (asking_of_pc hpc nofun)
    · cases hmove
  | finish j k =>
    dsimp only at hmove
    split at hmove
    · next t hk =>
      split at hmove
      · next hrunning =>
        cases hmove
        exact .finish k t hk hrunning
      · cases hmove
    · cases hmove
  | next j k =>
    dsimp only at hmove
    split at hmove
    · next t hpc hk =>
      split at hmove
      · cases hmove
      · next hrunning =>
        cases hmove
        exact .next k t hpc hk (Bool.eq_false_of_not_eq_true hrunning)
    · cases hmove
  | abort j =>
    dsimp only at hmove
    -- a connection that is being aborted is between two calls
    have hclose : ∀ pc, c.pc = pc → pc ≠ .closed → (∀ id pool, pc ≠ .admitting id pool) →
        Moves w i c (w.close i c, []) := by
      intro pc hpc hopen hnone
      exact .close (by rw [hpc]; exact hopen) (asking_of_pc hpc hnone)
    split at hmove
    · next hpc =>
      cases hmove
      exact hclose _ hpc nofun nofun
    · next hpc =>
      cases hmove
      exact hclose _ hpc nofun nofun
    · next hpc =>
      cases hmove
      exact hclose _ hpc nofun nofun
    · cases hmove
    · cases hmove

theorem Booked.moves (h : Booked w) (hi : w.connections[i]? = some c) {r : InboundWorld × List InboundLabel}
    (hmoves : Moves w i c r) : Booked r.1 := by
  cases hmoves with
  | goto pc hopen hasking hpc =>
    rcases hpc with rfl | rfl
    · exact h.goto hi hopen nofun hasking.symm nofun
    · exact h.goto hi hopen nofun hasking.symm nofun
  | close hopen hasking => exact h.close hi hopen hasking
  | request id hpc => exact h.request hi hpc id
  | admitRpc id pool hpc => exact h.admitRpc hi hpc
  | finish k t hk hrunning => exact h.finish hi hk hrunning
  | next k t hpc hk hrunning => exact h.next hi hpc hk hrunning

theorem Booked.step (h : Booked w) {act : InboundAct} {w' : InboundWorld} {shown : List InboundLabel}
    (hstep : w.step act = some (w', shown)) : Booked w' := by
  unfold InboundWorld.step at hstep
  split at hstep
  · obtain ⟨c, hi, hmove⟩ := Option.bind_eq_some_iff.mp hstep
    exact h.moves hi (move_cases hmove)
  · split at hstep
    · cases hstep
      exact h
    · next hs =>
      cases hstep
      exact h.incoming hs

theorem inbound_booked (acts : List InboundAct) : Booked (inbound acts).1 := by
  have hstart : Booked {} := by
    refine ⟨rfl, fun p => ?_, nofun, nofun⟩
    cases p <;> rfl
  exact Machine.run_invariant (J := fun w _ => Booked w) hstart acts fun _ _ _ _ _ _ h hstep => h.step hstep

/-! ## 3. Limits

Bounds follow from the equation between permits and holders alone. -/

theorem count_le {q r : RpcTask → Bool} (h : ∀ c ∈ w.connections, ∀ t ∈ c.rpcTasks, q t = true → r t = true) :
    w.count q ≤ w.count r := by
  refine tally_le _ fun c hc => tally_le _ fun t ht => ?_
  cases hq : q t with
  | false => simp
  | true => rw [h c hc t ht hq]

/-- Every call has its permit from one of the two pools. -/
theorem count_pools (w : InboundWorld) :
    w.count (fun _ => true) = w.count (ofPool .shared) + w.count (ofPool .reservedOrdinary) := by
  unfold InboundWorld.count
  rw [← tally_add]
  refine tally_congr _ fun c _ => ?_
  unfold InboundConnection.count
  rw [← tally_add]
  refine tally_congr _ fun t _ => ?_
  unfold ofPool
  cases t.running with
  | false => rfl
  | true =>
    cases t.pool with
    | shared => rfl
    | reservedOrdinary => rfl

/-- **The limits hold, and no permit is lost.**  However connections come and go, calls are taken on, end, are
aborted with their connection or outlive it: there are never more connections, more calls of one connection, more
calls or more long polls than there may be; and when everything is over, all permits are back. -/
theorem inbound_capped (acts : List InboundAct) :
    (inbound acts).1.opened ≤ MAX_INBOUND_CONNECTIONS ∧
    (∀ c ∈ (inbound acts).1.connections, c.count (fun _ => true) ≤ MAX_CONCURRENT_RPCS_PER_CONNECTION) ∧
    (inbound acts).1.count (fun _ => true) ≤ MAX_CONCURRENT_INBOUND_RPCS ∧
    (inbound acts).1.count (fun t => isLongPoll t.rpcId) ≤
      MAX_CONCURRENT_INBOUND_RPCS - RESERVED_ORDINARY_INBOUND_RPCS ∧
    ((∀ c ∈ (inbound acts).1.connections, c.pc = .closed ∧ ∀ t ∈ c.rpcTasks, t.running = false) →
      (inbound acts).1.admission = {}) := by
  have h := inbound_booked acts
  generalize (inbound acts).1 = w at *
  refine ⟨h.connections.le, fun c hc => ?_, ?_, ?_, fun hover => ?_⟩
  · have hown := (h.own c hc).le
    omega
  · rw [count_pools]
    have hshared : _ ≤ 256 - 64 := (h.pools .shared).le
    have hreserved : _ ≤ 64 := (h.pools .reservedOrdinary).le
    exact Nat.add_le_add hshared hreserved
  · -- a long poll is not in the reserve
    refine (count_le fun c hc t ht hlong => ?_).trans (h.pools .shared).le
    cases hpool : t.pool with
    | shared => exact decide_eq_true hpool
    | reservedOrdinary =>
      rw [(h.reserved c hc).tasks t ht hpool] at hlong
      cases hlong
  · have hopened : w.opened = 0 := tally_eq_zero _ fun c hc => if_pos (hover c hc).1
    have hnone : ∀ q, w.count q = 0 := fun q => tally_eq_zero _ fun c hc => tally_eq_zero _ fun t ht => by
      rw [(hover c hc).2 t ht]
      rfl
    have hconnections := h.connections
    rw [hopened] at hconnections
    have hpool : ∀ p, w.admission.pool p = ⟨capacity p⟩ := fun p => by
      have hlends := h.pools p
      rw [hnone] at hlends
      exact hlends.eq_of_none
    have hfirst : w.admission.connections = ⟨MAX_INBOUND_CONNECTIONS⟩ := hconnections.eq_of_none
    have hshared : w.admission.sharedRpcs = ⟨capacity .shared⟩ := hpool .shared
    have hreserved : w.admission.reservedOrdinaryRpcs = ⟨capacity .reservedOrdinary⟩ := hpool .reservedOrdinary
    obtain ⟨⟨connections, sharedRpcs, reservedOrdinaryRpcs⟩, _⟩ := w
    cases hfirst
    cases hshared
    cases hreserved
    rfl

/-! ## 4. The reserve

The converse: a call that is taken on or refused is so for a reason that the state shows. -/

theorem inbound_snoc (acts : List InboundAct) (act : InboundAct) :
    inbound (acts ++ [act]) = Machine.advance InboundWorld.step (inbound acts) act := Machine.run_snoc ..

/-- **Long polls cannot starve finite calls.**  A call that is not a long poll is started if its connection has
fewer than 32 calls and fewer than 64 such calls run, whatever else runs. -/
theorem ordinary_admitted (acts : List InboundAct) {i : ℕ} {c : InboundConnection} {s req rest : Bytes} {id : RpcId}
    (hi : (inbound acts).1.connections[i]? = some c) (hpc : c.pc = .reading)
    (hheader : readRequestRaw s = .ok ((id, req), rest)) (hord : isLongPoll id = false)
    (hown : c.count (fun _ => true) < MAX_CONCURRENT_RPCS_PER_CONNECTION)
    (hfew : (inbound acts).1.count (fun t => !isLongPoll t.rpcId) < RESERVED_ORDINARY_INBOUND_RPCS) :
    (inbound (acts ++ [.header i (some s), .admitting i])).2 =
      (inbound acts).2 ++ [.started i id .reservedOrdinary] := by
  have h := inbound_booked acts
  have hsplit : acts ++ [.header i (some s), .admitting i] = (acts ++ [.header i (some s)]) ++ [.admitting i] := by
    simp
  rw [hsplit, inbound_snoc, inbound_snoc]
  generalize inbound acts = r at *
  have hasking : c.asking = 0 := by
    unfold InboundConnection.asking
    rw [hpc]
  have hmine := h.own c (List.mem_of_getElem? hi)
  rw [hasking] at hmine
  -- the header is followed by a permit of the connection
  have hrequest : r.1.step (.header i (some s)) =
      some (r.1.goto i { c with semaphore := ⟨c.semaphore.permits - 1⟩ } (.admitting id .reservedOrdinary), []) := by
    unfold InboundWorld.step
    show (r.1.connections[i]?).bind _ = _
    rw [hi, Option.bind_some]
    unfold InboundWorld.move
    dsimp only
    rw [hpc, Option.map_some, hheader]
    dsimp only
    unfold InboundWorld.request
    rw [hmine.tryAcquire_eq hown, hord]
    rfl
  -- and the reserve holds no more than the ordinary calls
  have hreserve : r.1.count (ofPool .reservedOrdinary) < RESERVED_ORDINARY_INBOUND_RPCS := by
    refine (count_le fun d hd t ht hpool => ?_).trans_lt hfew
    rw [(h.reserved d hd).tasks t ht (of_decide_eq_true hpool)]
    rfl
  have hstarted : (r.1.goto i { c with semaphore := ⟨c.semaphore.permits - 1⟩ }
      (.admitting id .reservedOrdinary)).step (.admitting i) = some ((r.1.goto i
        { c with semaphore := ⟨c.semaphore.permits - 1⟩ } (.admitting id .reservedOrdinary)).admitRpc i
          { c with
            semaphore := ⟨c.semaphore.permits - 1⟩
            pc := .admitting id .reservedOrdinary } id .reservedOrdinary) := by
    unfold InboundWorld.step
    show ((r.1.connections.set i _)[i]?).bind _ = _
    rw [List.getElem?_set_self (List.getElem?_eq_some_iff.mp hi).1]
    rfl
  unfold Machine.advance
  rw [hrequest]
  dsimp only
  rw [hstarted]
  unfold InboundWorld.admitRpc
  have hpermit : ((r.1.goto i { c with semaphore := ⟨c.semaphore.permits - 1⟩ }
      (.admitting id .reservedOrdinary)).admission.pool .reservedOrdinary).tryAcquire = some ⟨_⟩ :=
    (h.pools .reservedOrdinary).tryAcquire_eq hreserve
  rw [hpermit]
  simp

/-- What a refusal says about the state in which it happens. -/
def Full (w : InboundWorld) : InboundLabel → Prop
  | .rejectedConnection => w.opened = MAX_INBOUND_CONNECTIONS
  | .started .. => True
  | .rejected i _ .perConnection =>
    ∃ c, w.connections[i]? = some c ∧ c.count (fun _ => true) = MAX_CONCURRENT_RPCS_PER_CONNECTION
  | .rejected _ _ .clientWide =>
    w.count (ofPool .shared) = MAX_CONCURRENT_INBOUND_RPCS - RESERVED_ORDINARY_INBOUND_RPCS

/-- A connection that refuses a call has 32. -/
theorem Booked.request_full (h : Booked w) (hi : w.connections[i]? = some c) (hpc : c.pc = .reading) (id : RpcId) :
    ∀ label ∈ (w.request i c id).2, Full w label := by
  intro label hlabel
  unfold InboundWorld.request at hlabel
  split at hlabel
  · next hnone =>
    cases List.mem_singleton.mp hlabel
    have hall := (h.own c (List.mem_of_getElem? hi)).of_refused hnone
    rw [asking_of_pc hpc nofun] at hall
    exact ⟨c, hi, hall⟩
  · cases hlabel

/-- Only the shared permits refuse a call: without a reserved one, a call asks for one of them. -/
theorem Booked.admitRpc_full (h : Booked w) (id : RpcId) (pool : Pool) :
    ∀ label ∈ (w.admitRpc i c id pool).2, Full w label := by
  intro label hlabel
  unfold InboundWorld.admitRpc at hlabel
  split at hlabel
  · cases List.mem_singleton.mp hlabel
    trivial
  · next hnone =>
    cases pool with
    | reservedOrdinary => cases hlabel
    | shared =>
      cases List.mem_singleton.mp hlabel
      exact (h.pools .shared).of_refused hnone

/-- **Nothing is refused below its limit**: a connection is refused when 128 are open, a call when its connection
has 32, or when all permits are out that are not reserved. -/
theorem inbound_refusals (acts : List InboundAct) (act : InboundAct) {w' : InboundWorld} {shown : List InboundLabel}
    (hstep : (inbound acts).1.step act = some (w', shown)) : ∀ label ∈ shown, Full (inbound acts).1 label := by
  have h := inbound_booked acts
  generalize (inbound acts).1 = w at *
  unfold InboundWorld.step at hstep
  split at hstep
  · next i _ =>
    obtain ⟨c, hi, hmove⟩ := Option.bind_eq_some_iff.mp hstep
    have hmoves := move_cases hmove
    generalize hr : (w', shown) = r at hmoves
    rw [show shown = r.2 from congrArg Prod.snd hr]
    -- only a header and an admission refuse anything
    cases hmoves with
    | request id hpc => exact h.request_full hi hpc id
    | admitRpc id pool hpc => exact h.admitRpc_full id pool
    | goto | close | finish | next => nofun
  · intro label hlabel
    split at hstep
    · next hnone =>
      cases hstep
      cases List.mem_singleton.mp hlabel
      exact h.connections.of_refused hnone
    · cases hstep
      cases hlabel

/-! ## 5. One connection

The first call of a connection, and a connection too many. -/

section Sample

/-- A node has connected and opened a stream. -/
def sampleConnected : List InboundAct := [.incoming, .handshake 0 true, .acceptBi 0 true]

/-- A `PING`. -/
def samplePing : Bytes := [0, 0, 0, 0, 0, 1, 5]

/-- The call is started, since nobody else holds a permit. -/
theorem ordinary_admitted_sampleConnected :
    (inbound (sampleConnected ++ [.header 0 (some samplePing), .admitting 0])).2 =
      [.started 0 Rpc.PING.RPC_ID .reservedOrdinary] := by
  have hheader : readRequestRaw samplePing = .ok ((Rpc.PING.RPC_ID, [5]), []) := by
    decide +kernel
  exact ordinary_admitted sampleConnected (c := { pc := .reading }) rfl rfl hheader rfl (by decide) (by decide)

/-- The 129th connection. -/
theorem inbound_refusals_sampleIncoming :
    (inbound (List.replicate 128 .incoming)).1.opened = MAX_INBOUND_CONNECTIONS := by
  have hnone : (inbound (List.replicate 128 .incoming)).1.admission.connections.tryAcquire = none := by decide +kernel
  have hstep : ∀ w : InboundWorld, w.admission.connections.tryAcquire = none →
      w.step .incoming = some (w, [.rejectedConnection]) := by
    intro w hw
    unfold InboundWorld.step
    dsimp only [InboundWorld.connectionOf]
    rw [hw]
  exact inbound_refusals _ .incoming (hstep _ hnone) .rejectedConnection (List.mem_singleton.mpr rfl)

end Sample

end Rostra.Inbound
