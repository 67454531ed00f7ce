import JamSAT.Runs

/-!
# The kill-thread

A client of the IPASIR interface and the thread that `setTerminate` launches share
a context behind a lock. Their operations interleave; one on a deleted object, a
call of an empty callback and a second thread are faults. Of the exceptions, that of a
thread which cannot be started is modelled.
-/

namespace JamSAT

namespace KillThread

inductive Party
  | client
  | killThread
  deriving DecidableEq, Repr

/-- `IPASIRKillThreadContext`: who holds the lock, and whether the pointer and the
callback are set. -/
structure KillThreadContext where
  m_lock : Option Party
  m_solver : Bool
  m_userKillCallback : Bool
  m_parentIpasirContextExists : Bool
  deriving DecidableEq, Repr

inductive Lifetime
  | unborn
  | alive
  | destroyed
  deriving DecidableEq, Repr

inductive Op
  | createSolver
  /-- `new IPASIRKillThreadContext()` with the first two assignments -/
  | allocate
  | lock
  | unlock
  /-- `m_killThreadContext->m_solver = m_solver.get()` -/
  | setSolver
  | setCallback
  | launchKillThread
  /-- `m_parentIpasirContextExists = false` -/
  | setParentGone
  /-- `m_killThreadContext->m_solver = nullptr` -/
  | clearSolver
  /-- the destruction of the members of the client's object -/
  | destroyMembers
  deriving DecidableEq, Repr

inductive Position
  | notLaunched
  | sleeping
  | locked
  /-- before the call of the callback -/
  | polling
  /-- before the call of `stop` -/
  | stopping
  /-- at the end of the loop's body -/
  | continuing
  | returning
  /-- before the destruction of the context -/
  | exiting
  | ended
  deriving DecidableEq, Repr

structure State where
  /-- the solver of the client's object -/
  m_solver : Lifetime
  /-- whether `m_killThreadContext` is not `nullptr` -/
  m_killThreadContext : Bool
  /-- the context while it exists -/
  context : Option KillThreadContext
  /-- whether the destructor of the client's object has not been called -/
  alive : Bool
  /-- what is left of the client's call -/
  client : List Op
  thread : Position
  deriving DecidableEq, Repr

def new : State := ⟨.unborn, false, none, true, [], .notLaunched⟩

inductive Call
  /-- `ensureSolverExists` in one of the calls that need a solver -/
  | ensureSolverExists
  | setTerminate
  | destroy
  deriving DecidableEq, Repr

inductive Action
  | call (call : Call)
  | client
  /-- the thread cannot be started: the launch throws -/
  | launchFails
  /-- the callback, if it is called, returns `stop` -/
  | thread (stop : Bool)
  deriving DecidableEq, Repr

inductive Outcome
  | blocked
  | fault
  | next (s : State)
  deriving DecidableEq, Repr

namespace State

def begin (s : State) : Call → List Op
  | .ensureSolverExists =>
    if s.m_solver = .unborn then
      .createSolver :: if s.m_killThreadContext then [.lock, .setSolver, .unlock] else []
    else []
  | .setTerminate =>
    if s.m_killThreadContext then [.lock, .setCallback, .unlock]
    else [.allocate, .lock, .setCallback, .launchKillThread, .unlock]
  | .destroy =>
    if s.m_killThreadContext then [.lock, .setParentGone, .clearSolver, .unlock, .destroyMembers]
    else [.destroyMembers]

def access (s : State) (f : KillThreadContext → Outcome) : Outcome :=
  match s.context with
  | none => .fault
  | some k => f k

def lock (s : State) (p : Party) : Outcome :=
  s.access fun k =>
    if k.m_lock = none then .next { s with context := some { k with m_lock := some p } } else .blocked

def unlock (s : State) : Outcome := s.access fun k => .next { s with context := some { k with m_lock := none } }

def perform (s : State) : Op → Outcome
  | .createSolver => .next { s with m_solver := .alive }
  | .allocate => .next { s with
      m_killThreadContext := true, context := some ⟨none, s.m_solver = .alive, false, true⟩ }
  | .lock => s.lock .client
  | .unlock => s.unlock
  | .setSolver => s.access fun k => .next { s with context := some { k with m_solver := s.m_solver = .alive } }
  | .setCallback => s.access fun k => .next { s with context := some { k with m_userKillCallback := true } }
  | .launchKillThread =>
    if s.thread = .notLaunched then .next { s with thread := .sleeping } else .fault
  | .setParentGone =>
    s.access fun k => .next { s with context := some { k with m_parentIpasirContextExists := false } }
  | .clearSolver => s.access fun k => .next { s with context := some { k with m_solver := false } }
  | .destroyMembers => .next { s with m_solver := .destroyed }

def threadStep (s : State) (stop : Bool) : Outcome :=
  match s.thread with
  | .notLaunched => .blocked
  | .sleeping => { s with thread := .locked }.lock .killThread
  | .locked => s.access fun k =>
      .next { s with thread :=
        if !k.m_parentIpasirContextExists then .returning
        else if !k.m_solver then .continuing
        else .polling }
  | .polling => s.access fun k =>
      if k.m_userKillCallback then .next { s with thread := if stop then .stopping else .continuing } else .fault
  | .stopping => if s.m_solver = .alive then .next { s with thread := .continuing } else .fault
  | .continuing => { s with thread := .sleeping }.unlock
  | .returning => { s with thread := .exiting }.unlock
  | .exiting => s.access fun _ => .next { s with thread := .ended, context := none }
  | .ended => .blocked

def step (s : State) : Action → Outcome
  | .call c =>
    if s.alive ∧ s.client = [] then .next { s with client := s.begin c, alive := c ≠ .destroy } else .blocked
  | .client =>
    match s.client with
    | [] => .blocked
    | op :: client => { s with client := client }.perform op
  | .launchFails =>
    match s.client with
    -- the exception destroys the `unique_ptr` that has been made for the thread
    | .launchKillThread :: client => .next { s with client := client, context := none }
    | _ => .blocked
  | .thread stop => s.threadStep stop

/-- A step of a run in which the thread can be started. -/
def Steps (s t : State) : Prop := ∃ a, a ≠ .launchFails ∧ s.step a = .next t

def Reachable : State → Prop := Runs.Reachable (fun s => s = new) Steps

def after (s : State) (a : Action) : Option State :=
  match s.step a with
  | .next t => some t
  | _ => none

theorem Reachable.run_get {as : List Action} (hl : .launchFails ∉ as) (h : (as.foldlM after new).isSome = true) :
    ((as.foldlM after new).get h).Reachable := by
  refine Runs.Reachable.foldlM (.init rfl) (fun a ha s t hs => ⟨a, fun he => hl (he ▸ ha), ?_⟩)
    (Option.some_get h).symm
  unfold after at hs
  split at hs
  · rename_i u hu
    rw [hu, Option.some.inj hs]
  · cases hs

end State

/-! ## The invariant -/

def holdsLock : List Op → Bool
  | [] => false
  | .lock :: _ => false
  | .unlock :: _ => true
  | _ :: ops => holdsLock ops

def Position.holdsLock : Position → Bool
  | .locked | .polling | .stopping | .continuing | .returning => true
  | _ => false

/-- What may be left of a call. -/
inductive Program : (alive context : Bool) → List Op → Prop
  | idle {alive context : Bool} : Program alive context []
  | create : Program true false [.createSolver]
  | createShared : Program true true [.createSolver, .lock, .setSolver, .unlock]
  | lockSolver : Program true true [.lock, .setSolver, .unlock]
  | setSolver : Program true true [.setSolver, .unlock]
  | allocate : Program true false [.allocate, .lock, .setCallback, .launchKillThread, .unlock]
  | lockNew : Program true true [.lock, .setCallback, .launchKillThread, .unlock]
  | setNew : Program true true [.setCallback, .launchKillThread, .unlock]
  | launch : Program true true [.launchKillThread, .unlock]
  | lockCallback : Program true true [.lock, .setCallback, .unlock]
  | setCallback : Program true true [.setCallback, .unlock]
  | unlock : Program true true [.unlock]
  | lockGone : Program false true [.lock, .setParentGone, .clearSolver, .unlock, .destroyMembers]
  | setGone : Program false true [.setParentGone, .clearSolver, .unlock, .destroyMembers]
  | clear : Program false true [.clearSolver, .unlock, .destroyMembers]
  | unlockGone : Program false true [.unlock, .destroyMembers]
  | destroy {context : Bool} : Program false context [.destroyMembers]

structure Shared (s : State) (k : KillThreadContext) : Prop where
  client_lock : k.m_lock = some .client ↔ holdsLock s.client = true
  thread_lock : k.m_lock = some .killThread ↔ s.thread.holdsLock = true
  parent : k.m_parentIpasirContextExists = false ↔ s.alive = false ∧ .setParentGone ∉ s.client
  solver : k.m_solver = true → s.m_solver = .alive
  published : s.alive = true → .setSolver ∉ s.client → s.m_solver = .alive → k.m_solver = true
  cleared : s.alive = false → .clearSolver ∉ s.client → k.m_solver = false
  callback : s.thread ≠ .notLaunched ∨ .setCallback ∉ s.client → k.m_userKillCallback = true
  polling : s.thread = .polling ∨ s.thread = .stopping → k.m_solver = true
  returning : s.thread = .returning → k.m_parentIpasirContextExists = false

structure Inv (s : State) : Prop where
  program : Program s.alive s.m_killThreadContext s.client
  absent : s.m_killThreadContext = false → s.context = none ∧ s.thread = .notLaunched
  deleted : s.m_killThreadContext = true → (s.context = none ↔ s.thread = .ended)
  launched : s.m_killThreadContext = true → (s.thread = .notLaunched ↔ .launchKillThread ∈ s.client)
  gone : s.thread = .returning ∨ s.thread = .exiting ∨ s.thread = .ended →
    s.alive = false ∧ (s.client = [] ∨ s.client = [.destroyMembers])
  living : s.m_solver = .destroyed → s.alive = false ∧ s.client = []
  shared : ∀ k, s.context = some k → Shared s k

theorem Inv.new : Inv new where
  program := .idle
  absent _ := ⟨rfl, rfl⟩
  deleted h := by cases h
  launched h := by cases h
  gone h := by rcases h with h | h | h <;> cases h
  living h := by cases h
  shared k h := by cases h

variable {s t : State}

/-- What is left of the destructor without the lock once it has told the thread. -/
theorem Program.over {context : Bool} {ops : List Op} (hp : Program false context ops) (hset : .setParentGone ∉ ops)
    (hfree : holdsLock ops = false) : ops = [] ∨ ops = [.destroyMembers] := by
  cases hp <;> simp_all [holdsLock]

/-- A party that waits for the lock or holds it finds the context. -/
theorem Inv.exists_context (h : Inv s) (hp : s.m_killThreadContext = true)
    (hn : s.client ≠ [] ∧ s.client ≠ [.destroyMembers] ∨ s.thread ≠ .ended) :
    ∃ k, s.context = some k ∧ Shared s k := by
  cases hc : s.context with
  | some k => exact ⟨k, rfl, h.shared k hc⟩
  | none =>
    have he := (h.deleted hp).mp hc
    obtain ⟨-, hgone⟩ := h.gone (.inr (.inr he))
    rcases hn with ⟨hn, hn'⟩ | hn
    · cases hgone with
      | inl hg => exact absurd hg hn
      | inr hg => exact absurd hg hn'
    · exact absurd he hn

theorem Inv.of_context {k : KillThreadContext} (hc : t.context = some k) (hp : t.m_killThreadContext = true)
    (hprogram : Program t.alive true t.client) (hended : t.thread ≠ .ended)
    (hlaunched : t.thread = .notLaunched ↔ .launchKillThread ∈ t.client)
    (hgone : t.thread = .returning ∨ t.thread = .exiting → t.alive = false ∧
      (t.client = [] ∨ t.client = [.destroyMembers]))
    (hliving : t.m_solver = .destroyed → t.alive = false ∧ t.client = []) (hk : Shared t k) : Inv t where
  program := hp ▸ hprogram
  absent h := by
    rw [hp] at h
    cases h
  deleted _ := iff_of_false (by rw [hc]; exact Option.some_ne_none k) hended
  launched _ := hlaunched
  gone h := hgone (h.imp_right fun h => h.resolve_right hended)
  living := hliving
  shared k' hk' := by
    rw [hc] at hk'
    exact Option.some.inj hk' ▸ hk

theorem Inv.begin (h : Inv s) {c : Call} (ha : s.alive = true) (hn : s.client = []) :
    Inv { s with client := s.begin c, alive := c ≠ .destroy } := by
  have hctx := h.exists_context
  obtain ⟨hp, habsent, hdeleted, hlaunched, hgone, hliving, hshared⟩ := h
  obtain ⟨solver, pointer, context, alive, client, thread⟩ := s
  dsimp only at *
  subst ha hn
  have hended : thread ≠ .ended := fun he => by cases (hgone (.inr (.inr he))).1
  cases pointer with
  | false =>
    obtain ⟨rfl, rfl⟩ := habsent rfl
    cases c <;> cases solver <;> constructor <;> simp_all [State.begin]
    all_goals constructor
  | true =>
    obtain ⟨k, rfl, hk⟩ := hctx rfl (.inr hended)
    obtain ⟨hclient, hthread, hparent, hsolver, hpublished, hcleared, hcallback, hpolling, hreturning⟩ := hk
    cases c <;> cases solver <;> apply Inv.of_context rfl rfl <;> simp_all [State.begin]
    all_goals constructor
    all_goals simp_all [holdsLock]

/-! ## The client's operations -/

section
variable {alive context : Bool} {op : Op} {ops : List Op}

theorem Program.rest (h : Program alive context (op :: ops)) : Program alive (context || op == .allocate) ops := by
  cases h <;> constructor

theorem Program.of_lock (h : Program alive context (.lock :: ops)) : context = true ∧ holdsLock ops = true := by
  cases h <;> exact ⟨rfl, rfl⟩

theorem Program.of_unlock (h : Program alive context (.unlock :: ops)) : context = true ∧ holdsLock ops = false := by
  cases h <;> exact ⟨rfl, rfl⟩

theorem Program.of_setSolver (h : Program alive context (.setSolver :: ops)) :
    context = true ∧ alive = true ∧ ops = [.unlock] := by
  cases h
  exact ⟨rfl, rfl, rfl⟩

theorem Program.of_setCallback (h : Program alive context (.setCallback :: ops)) :
    context = true ∧ alive = true ∧ (ops = [.launchKillThread, .unlock] ∨ ops = [.unlock]) := by
  cases h with
  | setNew => exact ⟨rfl, rfl, .inl rfl⟩
  | setCallback => exact ⟨rfl, rfl, .inr rfl⟩

theorem Program.of_setParentGone (h : Program alive context (.setParentGone :: ops)) :
    context = true ∧ alive = false ∧ ops = [.clearSolver, .unlock, .destroyMembers] := by
  cases h
  exact ⟨rfl, rfl, rfl⟩

theorem Program.of_clearSolver (h : Program alive context (.clearSolver :: ops)) :
    context = true ∧ alive = false ∧ ops = [.unlock, .destroyMembers] := by
  cases h
  exact ⟨rfl, rfl, rfl⟩

theorem Program.of_launchKillThread (h : Program alive context (.launchKillThread :: ops)) :
    context = true ∧ alive = true ∧ ops = [.unlock] := by
  cases h
  exact ⟨rfl, rfl, rfl⟩

variable (h : Inv s)
include h

/-- The operations that change the context and neither launch the thread nor end the client's object. -/
theorem Inv.advance {k : KillThreadContext} (hn : s.client = op :: ops) (hp : s.m_killThreadContext = true)
    (hlaunch : op ≠ .launchKillThread) (hdestroy : op ≠ .destroyMembers)
    (hk : Shared { s with client := ops, context := some k } k) : Inv { s with client := ops, context := some k } := by
  have hprogram := h.program
  rw [hn, hp] at hprogram
  have hbusy : s.client ≠ [] ∧ s.client ≠ [.destroyMembers] := by simp [hn, hdestroy]
  have hover : ¬ (s.client = [] ∨ s.client = [.destroyMembers]) := fun ho => ho.elim hbusy.1 hbusy.2
  refine .of_context rfl hp (by simpa using hprogram.rest) (fun he => hover (h.gone (.inr (.inr he))).2) ?_
    (fun hg => absurd (h.gone (hg.imp_right .inl)).2 hover) (fun hd => absurd (h.living hd).2 hbusy.1) hk
  rw [h.launched hp, hn, List.mem_cons]
  exact or_iff_right hlaunch.symm

theorem Inv.update {f : KillThreadContext → KillThreadContext} (hn : s.client = op :: ops)
    (hp : s.m_killThreadContext = true) (hlaunch : op ≠ .launchKillThread) (hdestroy : op ≠ .destroyMembers)
    (hk : ∀ k, Shared s k → Shared { s with client := ops, context := some (f k) } (f k)) :
    (s.access fun k => .next { s with client := ops, context := some (f k) }) ≠ .fault ∧
      ∀ t, (s.access fun k => .next { s with client := ops, context := some (f k) }) = .next t → Inv t := by
  obtain ⟨k, hc, hshared⟩ := h.exists_context hp (.inl (by simp [hn, hdestroy]))
  unfold State.access
  rw [hc]
  refine ⟨Outcome.noConfusion, fun t ht => ?_⟩
  cases ht
  exact h.advance hn hp hlaunch hdestroy (hk k hshared)

theorem Inv.lock (hn : s.client = .lock :: ops) :
    { s with client := ops }.lock .client ≠ .fault ∧ ∀ t, { s with client := ops }.lock .client = .next t → Inv t := by
  obtain ⟨hp, hholds⟩ := (hn ▸ h.program).of_lock
  obtain ⟨k, hc, hk⟩ := h.exists_context hp (.inl (by simp [hn]))
  simp only [State.lock, State.access, hc]
  split
  · refine ⟨Outcome.noConfusion, fun t ht => ?_⟩
    cases ht
    apply h.advance hn hp Op.noConfusion Op.noConfusion
    obtain ⟨hclient, hthread, hparent, hsolver, hpublished, hcleared, hcallback, hpolling, hreturning⟩ := hk
    constructor <;> simp_all
  · exact ⟨Outcome.noConfusion, fun t ht => Outcome.noConfusion ht⟩

theorem Inv.unlock (hn : s.client = .unlock :: ops) :
    { s with client := ops }.unlock ≠ .fault ∧ ∀ t, { s with client := ops }.unlock = .next t → Inv t := by
  obtain ⟨hp, hholds⟩ := (hn ▸ h.program).of_unlock
  refine h.update hn hp Op.noConfusion Op.noConfusion fun k hk => ?_
  obtain ⟨hclient, hthread, hparent, hsolver, hpublished, hcleared, hcallback, hpolling, hreturning⟩ := hk
  have hheld := hclient.mpr (hn ▸ rfl)
  constructor <;> simp_all

theorem Inv.setSolver (hn : s.client = .setSolver :: ops) :
    { s with client := ops }.perform .setSolver ≠ .fault ∧
      ∀ t, { s with client := ops }.perform .setSolver = .next t → Inv t := by
  obtain ⟨hp, halive, rfl⟩ := (hn ▸ h.program).of_setSolver
  refine h.update hn hp Op.noConfusion Op.noConfusion fun k hk => ?_
  obtain ⟨hclient, hthread, hparent, hsolver, hpublished, hcleared, hcallback, hpolling, hreturning⟩ := hk
  constructor <;> simp_all [holdsLock]

theorem Inv.setCallback (hn : s.client = .setCallback :: ops) :
    { s with client := ops }.perform .setCallback ≠ .fault ∧
      ∀ t, { s with client := ops }.perform .setCallback = .next t → Inv t := by
  obtain ⟨hp, halive, hops⟩ := (hn ▸ h.program).of_setCallback
  refine h.update hn hp Op.noConfusion Op.noConfusion fun k hk => ?_
  obtain ⟨hclient, hthread, hparent, hsolver, hpublished, hcleared, hcallback, hpolling, hreturning⟩ := hk
  rcases hops with rfl | rfl <;> constructor <;> simp_all [holdsLock]

theorem Inv.setParentGone (hn : s.client = .setParentGone :: ops) :
    { s with client := ops }.perform .setParentGone ≠ .fault ∧
      ∀ t, { s with client := ops }.perform .setParentGone = .next t → Inv t := by
  obtain ⟨hp, halive, rfl⟩ := (hn ▸ h.program).of_setParentGone
  refine h.update hn hp Op.noConfusion Op.noConfusion fun k hk => ?_
  obtain ⟨hclient, hthread, hparent, hsolver, hpublished, hcleared, hcallback, hpolling, hreturning⟩ := hk
  constructor <;> simp_all [holdsLock]

theorem Inv.clearSolver (hn : s.client = .clearSolver :: ops) :
    { s with client := ops }.perform .clearSolver ≠ .fault ∧
      ∀ t, { s with client := ops }.perform .clearSolver = .next t → Inv t := by
  obtain ⟨hp, halive, rfl⟩ := (hn ▸ h.program).of_clearSolver
  refine h.update hn hp Op.noConfusion Op.noConfusion fun k hk => ?_
  obtain ⟨hclient, hthread, hparent, hsolver, hpublished, hcleared, hcallback, hpolling, hreturning⟩ := hk
  have hheld := hclient.mpr (hn ▸ rfl)
  -- the client holds the lock, under which the thread uses the solver
  have hout : s.thread ≠ .polling ∧ s.thread ≠ .stopping := by
    constructor <;> intro he <;> simp_all [Position.holdsLock]
  constructor <;> simp_all [holdsLock]

theorem Inv.createSolver (hn : s.client = .createSolver :: ops) :
    Inv { s with client := ops, m_solver := .alive } := by
  have hctx := h.exists_context
  obtain ⟨hp, habsent, hdeleted, hlaunched, hgone, hliving, hshared⟩ := h
  rw [hn] at hp
  obtain ⟨solver, pointer, context, alive, client, thread⟩ := s
  dsimp only at *
  subst hn
  cases hp with
  | create =>
    constructor <;> simp_all
    constructor
  | createShared =>
    obtain ⟨k, rfl, hk⟩ := hctx rfl (.inl (by simp))
    obtain ⟨hclient, hthread, hparent, hsolver, hpublished, hcleared, hcallback, hpolling, hreturning⟩ := hk
    apply Inv.of_context rfl rfl .lockSolver <;> simp_all
    constructor <;> simp_all [holdsLock]

theorem Inv.allocate (hn : s.client = .allocate :: ops) :
    Inv { s with
      client := ops, m_killThreadContext := true, context := some ⟨none, s.m_solver = .alive, false, true⟩ } := by
  obtain ⟨hp, habsent, hdeleted, hlaunched, hgone, hliving, hshared⟩ := h
  rw [hn] at hp
  obtain ⟨solver, pointer, context, alive, client, thread⟩ := s
  dsimp only at *
  subst hn
  cases hp
  apply Inv.of_context rfl rfl .lockNew <;> simp_all
  constructor <;> simp_all [holdsLock, Position.holdsLock]

theorem Inv.launchKillThread (hn : s.client = .launchKillThread :: ops) :
    s.thread = .notLaunched ∧ Inv { s with client := ops, thread := .sleeping } := by
  obtain ⟨hp, halive, rfl⟩ := (hn ▸ h.program).of_launchKillThread
  have hnot : s.thread = .notLaunched := (h.launched hp).mpr (by simp [hn])
  obtain ⟨k, hc, hk⟩ := h.exists_context hp (.inl (by simp [hn]))
  have hliving := h.living
  obtain ⟨hclient, hthread, hparent, hsolver, hpublished, hcleared, hcallback, hpolling, hreturning⟩ := hk
  refine ⟨hnot, .of_context hc hp (halive ▸ .unlock) ?_ ?_ ?_ ?_ ?_⟩ <;> simp_all
  constructor <;> simp_all [holdsLock, Position.holdsLock]

theorem Inv.destroyMembers (hn : s.client = .destroyMembers :: ops) :
    Inv { s with client := ops, m_solver := .destroyed } := by
  obtain ⟨hp, habsent, hdeleted, hlaunched, hgone, hliving, hshared⟩ := h
  rw [hn] at hp
  obtain ⟨solver, pointer, context, alive, client, thread⟩ := s
  dsimp only at *
  subst hn
  cases hp
  refine ⟨.idle, habsent, hdeleted, fun hc => ?_, fun hg => ⟨rfl, .inl rfl⟩, fun _ => ⟨rfl, rfl⟩, fun k hk => ?_⟩
  · rw [hlaunched hc]
    simp
  · obtain ⟨hclient, hthread, hparent, hsolver, hpublished, hcleared, hcallback, hpolling, hreturning⟩ := hshared k hk
    constructor <;> simp_all [holdsLock]

theorem Inv.perform (hn : s.client = op :: ops) :
    { s with client := ops }.perform op ≠ .fault ∧ ∀ t, { s with client := ops }.perform op = .next t → Inv t := by
  cases op with
  | createSolver => exact ⟨Outcome.noConfusion, fun t ht => Outcome.next.inj ht ▸ h.createSolver hn⟩
  | allocate => exact ⟨Outcome.noConfusion, fun t ht => Outcome.next.inj ht ▸ h.allocate hn⟩
  | lock => exact h.lock hn
  | unlock => exact h.unlock hn
  | setSolver => exact h.setSolver hn
  | setCallback => exact h.setCallback hn
  | launchKillThread =>
    obtain ⟨hnot, hinv⟩ := h.launchKillThread hn
    unfold State.perform
    dsimp only
    rw [if_pos hnot]
    exact ⟨Outcome.noConfusion, fun t ht => Outcome.next.inj ht ▸ hinv⟩
  | setParentGone => exact h.setParentGone hn
  | clearSolver => exact h.clearSolver hn
  | destroyMembers => exact ⟨Outcome.noConfusion, fun t ht => Outcome.next.inj ht ▸ h.destroyMembers hn⟩

/-- The lock that the client holds is in the context that the exception has deleted. -/
theorem Inv.launchFails (hs : s.step .launchFails = .next t) : t.step .client = .fault := by
  unfold State.step at hs
  dsimp only at hs
  split at hs
  · rename_i ops hn
    obtain ⟨-, -, rfl⟩ := (hn ▸ h.program).of_launchKillThread
    cases hs
    rfl
  · cases hs

end

/-! ## The thread -/

section
variable (h : Inv s) (stop : Bool)
include h

theorem Inv.pointer (ht : s.thread ≠ .notLaunched) : s.m_killThreadContext = true := by
  cases hp : s.m_killThreadContext with
  | true => rfl
  | false => exact absurd (h.absent hp).2 ht

theorem Inv.moved {k : KillThreadContext} {p : Position} (ht : s.thread ≠ .notLaunched) (hn : p ≠ .notLaunched)
    (he : p ≠ .ended) (hgone : p = .returning ∨ p = .exiting → s.alive = false ∧
      (s.client = [] ∨ s.client = [.destroyMembers]))
    (hk : Shared { s with context := some k, thread := p } k) : Inv { s with context := some k, thread := p } := by
  have hp := h.pointer ht
  have hlaunch : .launchKillThread ∉ s.client := fun hm => ht ((h.launched hp).mpr hm)
  exact .of_context rfl hp (hp ▸ h.program) he (iff_of_false hn hlaunch) hgone h.living hk

theorem Inv.sleeping (ht : s.thread = .sleeping) :
    s.threadStep stop ≠ .fault ∧ ∀ t, s.threadStep stop = .next t → Inv t := by
  have hn : s.thread ≠ .notLaunched := by simp [ht]
  obtain ⟨k, hc, hk⟩ := h.exists_context (h.pointer hn) (.inr (by simp [ht]))
  simp only [State.threadStep, ht, State.lock, State.access, hc]
  split
  · refine ⟨Outcome.noConfusion, fun t he => ?_⟩
    cases he
    refine h.moved hn Position.noConfusion Position.noConfusion (by simp) ?_
    obtain ⟨hclient, hthread, hparent, hsolver, hpublished, hcleared, hcallback, hpolling, hreturning⟩ := hk
    constructor <;> simp_all [Position.holdsLock]
  · exact ⟨Outcome.noConfusion, fun t he => Outcome.noConfusion he⟩

theorem Inv.locked (ht : s.thread = .locked) :
    s.threadStep stop ≠ .fault ∧ ∀ t, s.threadStep stop = .next t → Inv t := by
  have hn : s.thread ≠ .notLaunched := by simp [ht]
  obtain ⟨k, hc, hk⟩ := h.exists_context (h.pointer hn) (.inr (by simp [ht]))
  have hprogram := h.program
  simp only [State.threadStep, ht, State.access]
  rw [hc]
  refine ⟨Outcome.noConfusion, fun t he => ?_⟩
  cases he
  obtain ⟨hclient, hthread, hparent, hsolver, hpublished, hcleared, hcallback, hpolling, hreturning⟩ := hk
  cases hexists : k.m_parentIpasirContextExists with
  | false =>
    obtain ⟨halive, hset⟩ := hparent.mp hexists
    have hfree : holdsLock s.client = false := by
      simp_all [Position.holdsLock]
    have hover := (halive ▸ hprogram).over hset hfree
    refine h.moved hn Position.noConfusion Position.noConfusion (fun _ => ⟨halive, hover⟩) ?_
    constructor <;> simp_all [Position.holdsLock]
  | true =>
    cases hs : k.m_solver <;>
      refine h.moved hn Position.noConfusion Position.noConfusion (by simp) ?_ <;>
      constructor <;> simp_all [Position.holdsLock]

theorem Inv.polling (ht : s.thread = .polling) :
    s.threadStep stop ≠ .fault ∧ ∀ t, s.threadStep stop = .next t → Inv t := by
  have hn : s.thread ≠ .notLaunched := by simp [ht]
  obtain ⟨k, hc, hk⟩ := h.exists_context (h.pointer hn) (.inr (by simp [ht]))
  have hset := hk.callback (.inl hn)
  simp only [State.threadStep, ht, State.access]
  rw [hc]
  dsimp only
  rw [if_pos hset]
  refine ⟨Outcome.noConfusion, fun t he => ?_⟩
  cases he
  obtain ⟨hclient, hthread, hparent, hsolver, hpublished, hcleared, hcallback, hpolling, hreturning⟩ := hk
  cases stop <;>
    refine h.moved hn Position.noConfusion Position.noConfusion (by simp) ?_ <;>
    constructor <;> simp_all [Position.holdsLock]

theorem Inv.stopping (ht : s.thread = .stopping) :
    s.threadStep stop ≠ .fault ∧ ∀ t, s.threadStep stop = .next t → Inv t := by
  have hn : s.thread ≠ .notLaunched := by simp [ht]
  obtain ⟨k, hc, hk⟩ := h.exists_context (h.pointer hn) (.inr (by simp [ht]))
  have hlives := hk.solver (hk.polling (.inr ht))
  simp only [State.threadStep, ht]
  rw [if_pos hlives, hc]
  refine ⟨Outcome.noConfusion, fun t he => ?_⟩
  cases he
  obtain ⟨hclient, hthread, hparent, hsolver, hpublished, hcleared, hcallback, hpolling, hreturning⟩ := hk
  refine h.moved hn Position.noConfusion Position.noConfusion (by simp) ?_
  constructor <;> simp_all [Position.holdsLock]

theorem Inv.continuing (ht : s.thread = .continuing) :
    s.threadStep stop ≠ .fault ∧ ∀ t, s.threadStep stop = .next t → Inv t := by
  have hn : s.thread ≠ .notLaunched := by simp [ht]
  obtain ⟨k, hc, hk⟩ := h.exists_context (h.pointer hn) (.inr (by simp [ht]))
  simp only [State.threadStep, ht, State.unlock, State.access, hc]
  refine ⟨Outcome.noConfusion, fun t he => ?_⟩
  cases he
  obtain ⟨hclient, hthread, hparent, hsolver, hpublished, hcleared, hcallback, hpolling, hreturning⟩ := hk
  refine h.moved hn Position.noConfusion Position.noConfusion (by simp) ?_
  constructor <;> simp_all [Position.holdsLock]

theorem Inv.returning (ht : s.thread = .returning) :
    s.threadStep stop ≠ .fault ∧ ∀ t, s.threadStep stop = .next t → Inv t := by
  have hn : s.thread ≠ .notLaunched := by simp [ht]
  obtain ⟨k, hc, hk⟩ := h.exists_context (h.pointer hn) (.inr (by simp [ht]))
  simp only [State.threadStep, ht, State.unlock, State.access, hc]
  refine ⟨Outcome.noConfusion, fun t he => ?_⟩
  cases he
  obtain ⟨hclient, hthread, hparent, hsolver, hpublished, hcleared, hcallback, hpolling, hreturning⟩ := hk
  refine h.moved hn Position.noConfusion Position.noConfusion (fun _ => h.gone (.inl ht)) ?_
  constructor <;> simp_all [Position.holdsLock]

theorem Inv.exiting (ht : s.thread = .exiting) :
    s.threadStep stop ≠ .fault ∧ ∀ t, s.threadStep stop = .next t → Inv t := by
  have hn : s.thread ≠ .notLaunched := by simp [ht]
  have hp := h.pointer hn
  obtain ⟨k, hc, -⟩ := h.exists_context hp (.inr (by simp [ht]))
  have hlaunch : .launchKillThread ∉ s.client := fun hm => hn ((h.launched hp).mpr hm)
  simp only [State.threadStep, ht, State.access, hc]
  refine ⟨Outcome.noConfusion, fun t he => ?_⟩
  cases he
  refine ⟨h.program, fun ha => ?_, fun _ => iff_of_true rfl rfl, fun _ => iff_of_false Position.noConfusion hlaunch,
    fun _ => h.gone (.inr (.inl ht)), h.living, fun k hk => Option.noConfusion rfl (heq_of_eq hk)⟩
  exact absurd (hp.symm.trans ha) Bool.noConfusion

theorem Inv.threadStep : s.threadStep stop ≠ .fault ∧ ∀ t, s.threadStep stop = .next t → Inv t := by
  cases ht : s.thread with
  | notLaunched =>
    simp only [State.threadStep, ht]
    exact ⟨Outcome.noConfusion, fun t he => Outcome.noConfusion he⟩
  | sleeping => exact h.sleeping stop ht
  | locked => exact h.locked stop ht
  | polling => exact h.polling stop ht
  | stopping => exact h.stopping stop ht
  | continuing => exact h.continuing stop ht
  | returning => exact h.returning stop ht
  | exiting => exact h.exiting stop ht
  | ended =>
    simp only [State.threadStep, ht]
    exact ⟨Outcome.noConfusion, fun t he => Outcome.noConfusion he⟩

end

theorem Inv.step (h : Inv s) (a : Action) :
    s.step a ≠ .fault ∧ (a ≠ .launchFails → ∀ t, s.step a = .next t → Inv t) := by
  cases a with
  | call c =>
    unfold State.step
    dsimp only
    split
    · rename_i hc
      refine ⟨Outcome.noConfusion, fun _ t ht => ?_⟩
      cases ht
      exact h.begin hc.1 hc.2
    · exact ⟨Outcome.noConfusion, fun _ t ht => Outcome.noConfusion ht⟩
  | client =>
    unfold State.step
    dsimp only
    cases hc : s.client with
    | nil => exact ⟨Outcome.noConfusion, fun _ t ht => Outcome.noConfusion ht⟩
    | cons op ops => exact (h.perform hc).imp_right fun hinv _ => hinv
  | launchFails =>
    refine ⟨?_, fun hne => absurd rfl hne⟩
    unfold State.step
    dsimp only
    split <;> exact Outcome.noConfusion
  | thread stop => exact (h.threadStep stop).imp_right fun hinv _ => hinv

theorem Inv.of_reachable (h : s.Reachable) : Inv s :=
  Runs.Reachable.invariant h (fun _ hs => hs ▸ .new) fun _ _ hs ⟨a, ha, hst⟩ => (hs.step a).2 ha _ hst

/-! ## Waiting for the lock -/

theorem access_blocked {f : KillThreadContext → Outcome} (hs : s.access f = .blocked) :
    ∃ k, s.context = some k ∧ f k = .blocked := by
  unfold State.access at hs
  cases hc : s.context with
  | none =>
    rw [hc] at hs
    cases hs
  | some k =>
    rw [hc] at hs
    exact ⟨k, rfl, hs⟩

theorem lock_blocked {p : Party} (hs : s.lock p = .blocked) : ∃ k q, s.context = some k ∧ k.m_lock = some q := by
  obtain ⟨k, hk, hs⟩ := access_blocked hs
  cases hp : k.m_lock with
  | none =>
    rw [if_pos hp] at hs
    cases hs
  | some q => exact ⟨k, q, hk, hp⟩

theorem perform_blocked {op : Op} (hs : s.perform op = .blocked) : op = .lock := by
  cases op with
  | lock => rfl
  | createSolver => cases hs
  | allocate => cases hs
  | destroyMembers => cases hs
  | launchKillThread =>
    unfold State.perform at hs
    dsimp only at hs
    split at hs <;> cases hs
  | unlock =>
    obtain ⟨k, -, hs⟩ := access_blocked hs
    cases hs
  | setSolver =>
    obtain ⟨k, -, hs⟩ := access_blocked hs
    cases hs
  | setCallback =>
    obtain ⟨k, -, hs⟩ := access_blocked hs
    cases hs
  | setParentGone =>
    obtain ⟨k, -, hs⟩ := access_blocked hs
    cases hs
  | clearSolver =>
    obtain ⟨k, -, hs⟩ := access_blocked hs
    cases hs

theorem threadStep_blocked {stop : Bool} (hs : s.threadStep stop = .blocked) :
    s.thread = .notLaunched ∨ s.thread = .ended ∨
      s.thread = .sleeping ∧ ∃ k q, s.context = some k ∧ k.m_lock = some q := by
  unfold State.threadStep at hs
  cases hp : s.thread <;> rw [hp] at hs <;> dsimp only at hs
  case notLaunched => exact .inl rfl
  case ended => exact .inr (.inl rfl)
  case sleeping =>
    obtain ⟨k, q, hk, hq⟩ := lock_blocked hs
    exact .inr (.inr ⟨rfl, k, q, hk, hq⟩)
  case stopping => split at hs <;> cases hs
  case polling =>
    obtain ⟨k, -, hs⟩ := access_blocked hs
    split at hs <;> cases hs
  case locked =>
    obtain ⟨k, -, hs⟩ := access_blocked hs
    cases hs
  case continuing =>
    obtain ⟨k, -, hs⟩ := access_blocked hs
    cases hs
  case returning =>
    obtain ⟨k, -, hs⟩ := access_blocked hs
    cases hs
  case exiting =>
    obtain ⟨k, -, hs⟩ := access_blocked hs
    cases hs

theorem exists_next {o : Outcome} (hf : o ≠ .fault) (hb : o ≠ .blocked) : ∃ t, o = .next t := by
  cases o with
  | next t => exact ⟨t, rfl⟩
  | fault => exact absurd rfl hf
  | blocked => exact absurd rfl hb

/-- Somebody can go on: whoever waits for the lock waits for a party that does not. -/
theorem Inv.progress (h : Inv s) (hn : s.client ≠ [] ∨ s.thread ≠ .notLaunched ∧ s.thread ≠ .ended) (stop : Bool) :
    ∃ t, s.step .client = .next t ∨ s.step (.thread stop) = .next t := by
  have hclient := h.step .client
  have hthread := h.step (.thread stop)
  by_cases hb : s.step (.thread stop) = .blocked
  · obtain ⟨t, ht⟩ : ∃ t, s.step .client = .next t := by
      refine exists_next hclient.1 fun hb' => ?_
      unfold State.step at hb'
      dsimp only at hb'
      have hwait := threadStep_blocked hb
      cases hc : s.client with
      | nil =>
        rcases hwait with hw | hw | ⟨hw, k, q, hk, hq⟩
        · exact hn.elim (fun hn => hn hc) fun hn => hn.1 hw
        · exact hn.elim (fun hn => hn hc) fun hn => hn.2 hw
        · have hshared := h.shared k hk
          cases q with
          | client =>
            have := hshared.client_lock.mp hq
            rw [hc] at this
            cases this
          | killThread =>
            have := hshared.thread_lock.mp hq
            rw [hw] at this
            cases this
      | cons op ops =>
        rw [hc] at hb'
        dsimp only at hb'
        obtain rfl := perform_blocked hb'
        obtain ⟨k, q, hk, hq⟩ := lock_blocked hb'
        have hshared := h.shared k hk
        cases q with
        | client =>
          have := hshared.client_lock.mp hq
          rw [hc] at this
          cases this
        | killThread =>
          have := hshared.thread_lock.mp hq
          rcases hwait with hw | hw | ⟨hw, -⟩ <;> rw [hw] at this <;> cases this
    exact ⟨t, .inl ht⟩
  · exact (exists_next hthread.1 hb).imp fun t ht => .inr ht

/-! ## Safety and the end of the thread -/

/-- However the operations interleave while the thread can be started, no object is used
after its deletion, no empty callback is called and there is one thread at most; somebody
can always go on; and between the calls of the client the thread knows the solver if there
is one. When the thread cannot be started, the client's next operation is a fault. -/
theorem killThread_safe (h : s.Reachable) :
    (∀ a, s.step a ≠ .fault) ∧
    (s.client ≠ [] ∨ s.thread ≠ .notLaunched ∧ s.thread ≠ .ended →
      ∀ stop, ∃ t, s.step .client = .next t ∨ s.step (.thread stop) = .next t) ∧
    (s.alive = true → s.client = [] → ∀ k, s.context = some k → (k.m_solver = true ↔ s.m_solver = .alive)) ∧
    ∀ t, s.step .launchFails = .next t → t.step .client = .fault := by
  have hinv := Inv.of_reachable h
  refine ⟨fun a => (hinv.step a).1, hinv.progress, fun ha hc k hk => ?_, fun t => hinv.launchFails⟩
  have hshared := hinv.shared k hk
  refine ⟨hshared.solver, hshared.published ha ?_⟩
  rw [hc]
  exact List.not_mem_nil

def destroying : List Action :=
  .call .setTerminate :: List.replicate 5 .client ++ .call .ensureSolverExists :: List.replicate 4 .client ++
    .call .destroy :: List.replicate 5 .client

def destroyed : State := (destroying.foldlM State.after new).get (by decide +kernel)

theorem destroyed_safe :
    (∀ a, destroyed.step a ≠ .fault) ∧
    (destroyed.client ≠ [] ∨ destroyed.thread ≠ .notLaunched ∧ destroyed.thread ≠ .ended →
      ∀ stop, ∃ t, destroyed.step .client = .next t ∨ destroyed.step (.thread stop) = .next t) ∧
    (destroyed.alive = true → destroyed.client = [] →
      ∀ k, destroyed.context = some k → (k.m_solver = true ↔ destroyed.m_solver = .alive)) ∧
    ∀ t, destroyed.step .launchFails = .next t → t.step .client = .fault :=
  killThread_safe (.run_get (by decide) _)

def Position.rank : Position → Nat
  | .polling => 7
  | .stopping => 6
  | .continuing => 5
  | .sleeping => 4
  | .locked => 3
  | .returning => 2
  | .exiting => 1
  | .notLaunched | .ended => 0

structure Left (s : State) : Prop where
  inv : Inv s
  gone : s.alive = false ∧ s.client = []
  launched : s.thread ≠ .notLaunched

theorem next_of_access {f : KillThreadContext → Outcome} (hs : s.access f = .next t) :
    ∃ k, s.context = some k ∧ f k = .next t := by
  unfold State.access at hs
  cases hc : s.context with
  | none =>
    rw [hc] at hs
    cases hs
  | some k =>
    rw [hc] at hs
    exact ⟨k, rfl, hs⟩

theorem Left.threadStep (h : Left s) {stop : Bool} (hs : s.threadStep stop = .next t) :
    t.alive = s.alive ∧ t.client = s.client ∧ t.thread.rank < s.thread.rank ∧ t.thread ≠ .notLaunched := by
  unfold State.threadStep at hs
  cases hp : s.thread <;> rw [hp] at hs <;> dsimp only at hs
  case notLaunched => cases hs
  case ended => cases hs
  case sleeping =>
    obtain ⟨k, -, hs⟩ := next_of_access hs
    split at hs
    · cases hs
      exact ⟨rfl, rfl, by simp [Position.rank], Position.noConfusion⟩
    · cases hs
  case locked =>
    obtain ⟨k, hk, hs⟩ := next_of_access hs
    have hparent : k.m_parentIpasirContextExists = false := by
      refine (h.inv.shared k hk).parent.mpr ⟨h.gone.1, ?_⟩
      rw [h.gone.2]
      exact List.not_mem_nil
    rw [hparent] at hs
    cases hs
    exact ⟨rfl, rfl, by simp [Position.rank], Position.noConfusion⟩
  case polling =>
    obtain ⟨k, -, hs⟩ := next_of_access hs
    split at hs
    · cases hs
      cases stop
      · exact ⟨rfl, rfl, by simp [Position.rank], Position.noConfusion⟩
      · exact ⟨rfl, rfl, by simp [Position.rank], Position.noConfusion⟩
    · cases hs
  case stopping =>
    split at hs
    · cases hs
      exact ⟨rfl, rfl, by simp [Position.rank], Position.noConfusion⟩
    · cases hs
  case continuing =>
    obtain ⟨k, -, hs⟩ := next_of_access hs
    cases hs
    exact ⟨rfl, rfl, by simp [Position.rank], Position.noConfusion⟩
  case returning =>
    obtain ⟨k, -, hs⟩ := next_of_access hs
    cases hs
    exact ⟨rfl, rfl, by simp [Position.rank], Position.noConfusion⟩
  case exiting =>
    obtain ⟨k, -, hs⟩ := next_of_access hs
    cases hs
    exact ⟨rfl, rfl, by simp [Position.rank], Position.noConfusion⟩

/-- After the client's object the thread ends and its context is deleted. -/
theorem killThread_ends (h : s.Reachable) (ha : s.alive = false) (hc : s.client = [])
    (hl : s.thread ≠ .notLaunched) :
    Runs.Inevitable State.Steps (fun t => t.thread = .ended ∧ t.context = none) s := by
  refine Runs.Inevitable.of_rank (I := Left) (fun s => s.thread.rank) (fun s hs => ?_) (fun s t hs hst => .inr ?_) s
    ⟨.of_reachable h, ⟨ha, hc⟩, hl⟩
  · by_cases he : s.thread = .ended
    · refine .inl ⟨he, ?_⟩
      cases hp : s.m_killThreadContext with
      | false => exact (hs.inv.absent hp).1
      | true => exact (hs.inv.deleted hp).mpr he
    · obtain ⟨t, ht⟩ := hs.inv.progress (.inr ⟨hs.launched, he⟩) true
      exact .inr ⟨t, ht.elim (fun ht => ⟨_, Action.noConfusion, ht⟩) fun ht => ⟨_, Action.noConfusion, ht⟩⟩
  · obtain ⟨a, ha, hst⟩ := hst
    have hinv := (hs.inv.step a).2 ha t hst
    cases a with
    | call c =>
      unfold State.step at hst
      dsimp only at hst
      rw [if_neg fun hn => by rw [hs.gone.1] at hn; cases hn.1] at hst
      cases hst
    | client =>
      unfold State.step at hst
      rw [hs.gone.2] at hst
      cases hst
    | launchFails => exact absurd rfl ha
    | thread stop =>
      obtain ⟨halive, hclient, hrank, hlaunched⟩ := hs.threadStep hst
      exact ⟨⟨hinv, ⟨halive.trans hs.gone.1, hclient.trans hs.gone.2⟩, hlaunched⟩, hrank⟩

theorem destroyed_ends : Runs.Inevitable State.Steps (fun t => t.thread = .ended ∧ t.context = none) destroyed :=
  killThread_ends (.run_get (by decide) _) (by decide +kernel) (by decide +kernel) (by decide +kernel)

end KillThread

end JamSAT
