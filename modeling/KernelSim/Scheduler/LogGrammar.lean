import KernelSim.Scheduler.Clock
import KernelSim.Scheduler.Conservation

/-! The order of the lines in `scheduler.log`. -/
namespace KernelSim
open Runs Relation Scheduler

/-- Where a process stands, as the log tells it. -/
inductive Phase
  | fresh
  | running
  | waiting
  | finished
  deriving DecidableEq

def Phase.next : Phase → ProcessEvent → Option Phase
  | .fresh, .started => some .running
  | .waiting, .resumed => some .running
  | .running, .stopped => some .waiting
  | .running, .finished => some .finished
  | _, _ => none

section Grammar

variable {κ : Type} [DecidableEq κ] {l m pre mid post : List (κ × ProcessEvent)}
  {f g : κ → Phase} {k k' : κ} {e e' : ProcessEvent} {phase : Phase} {n : ℕ}

/-- The log `l` leaves the processes in the phases `f`; while one runs, only it is written about. -/
inductive Accepts : List (κ × ProcessEvent) → (κ → Phase) → Prop
  | nil : Accepts [] fun _ => .fresh
  | snoc {l : List (κ × ProcessEvent)} {f : κ → Phase} {k : κ} {e : ProcessEvent} {phase : Phase}
      (h : Accepts l f) (hnext : (f k).next e = some phase)
      (hothers : ∀ k', f k' = .running → k' = k) :
      Accepts (l ++ [(k, e)]) (Function.update f k phase)

/-- The lines about one process. -/
def recordsOf (k : κ) (l : List (κ × ProcessEvent)) : List ProcessEvent :=
  (l.filter fun r => r.1 = k).map Prod.snd

/-- `started`, and `n` times `stopped` and `resumed`. -/
def episodes (n : ℕ) : List ProcessEvent :=
  .started :: (List.replicate n [.stopped, .resumed]).flatten

theorem episodes_succ (n : ℕ) : episodes (n + 1) = episodes n ++ [.stopped, .resumed] := by
  simp [episodes, List.replicate_succ']

/-- The lines about a process in each phase. -/
inductive Own : Phase → List ProcessEvent → Prop
  | fresh : Own .fresh []
  | running (n : ℕ) : Own .running (episodes n)
  | waiting (n : ℕ) : Own .waiting (episodes n ++ [.stopped])
  | finished (n : ℕ) : Own .finished (episodes n ++ [.finished])

theorem Own.next {rs : List ProcessEvent} (h : Own phase rs) {phase' : Phase}
    (hnext : phase.next e = some phase') : Own phase' (rs ++ [e]) := by
  cases h with
  | fresh =>
    cases e <;> cases hnext
    exact .running 0
  | running n =>
    cases e <;> cases hnext
    · exact .waiting n
    · exact .finished n
  | waiting n =>
    cases e <;> cases hnext
    have hmore := episodes_succ n
    rw [List.append_assoc]
    exact hmore ▸ .running (n + 1)
  | finished n => cases e <;> cases hnext

theorem Accepts.own (h : Accepts l f) (k : κ) : Own (f k) (recordsOf k l) := by
  induction h with
  | nil => exact .fresh
  | @snoc l f k' e phase _ hnext _ ih =>
    by_cases hk : k' = k
    · subst hk
      have hmore := ih.next hnext
      simpa [recordsOf] using hmore
    · have hsame : recordsOf k (l ++ [(k', e)]) = recordsOf k l := by simp [recordsOf, hk]
      rw [hsame, Function.update_of_ne (Ne.symm hk)]
      exact ih

theorem Accepts.snoc_inv (h : Accepts (l ++ [(k, e)]) g) :
    ∃ f phase, Accepts l f ∧ (f k).next e = some phase ∧ (∀ k', f k' = .running → k' = k) ∧
      g = Function.update f k phase := by
  generalize hm : l ++ [(k, e)] = m at h
  cases h with
  | nil => simp at hm
  | snoc h hnext hothers =>
    obtain ⟨rfl, heq⟩ := List.append_singleton_inj.mp hm
    cases heq
    exact ⟨_, _, h, hnext, hothers, rfl⟩

theorem Accepts.of_append (h : Accepts (l ++ m) g) : ∃ f, Accepts l f := by
  induction m using List.reverseRecOn generalizing g with
  | nil => exact ⟨g, by simpa using h⟩
  | append_singleton m r ih =>
    rw [← List.append_assoc] at h
    obtain ⟨f, _, h, -⟩ := h.snoc_inv
    exact ih h

/-- The lines about any process begin with `started`, go on in pairs of `stopped` and `resumed`, and
end with `finished`. -/
def OwnRecords (l : List (κ × ProcessEvent)) : Prop :=
  ∀ k, ∃ n, recordsOf k l <+: episodes n ++ [.finished]

/-- From the line that a process has started or resumed to the next that it has stopped or finished,
no other process has a line. -/
def Uninterrupted (l : List (κ × ProcessEvent)) : Prop :=
  ∀ pre k e mid k' e' post, l = pre ++ (k, e) :: mid ++ (k', e') :: post →
    (e = .started ∨ e = .resumed) →
    (∀ r ∈ mid, r.1 = k → r.2 ≠ .stopped ∧ r.2 ≠ .finished) → k' = k

theorem Accepts.ownRecords (h : Accepts l f) : OwnRecords l := by
  intro k
  have hown := h.own k
  generalize f k = phase at hown
  generalize recordsOf k l = rs at hown
  cases hown with
  | fresh => exact ⟨0, List.nil_prefix⟩
  | running n => exact ⟨n, List.prefix_append _ _⟩
  | waiting n =>
    refine ⟨n + 1, ?_⟩
    rw [episodes_succ, List.append_assoc]
    exact (List.prefix_append_right_inj _).mpr ⟨[.resumed, .finished], rfl⟩
  | finished n => exact ⟨n, List.prefix_refl _⟩

/-- A process that has started or resumed runs until it stops or finishes. -/
theorem Accepts.still_running (h : Accepts (pre ++ (k, e) :: mid) g)
    (he : e = .started ∨ e = .resumed)
    (hmid : ∀ r ∈ mid, r.1 = k → r.2 ≠ .stopped ∧ r.2 ≠ .finished) : g k = .running := by
  induction mid using List.reverseRecOn generalizing g with
  | nil =>
    obtain ⟨f, phase, -, hnext, -, rfl⟩ := h.snoc_inv
    rw [Function.update_self]
    rcases he with rfl | rfl <;> cases hf : f k <;> rw [hf] at hnext <;> cases hnext <;> rfl
  | append_singleton mid r ih =>
    obtain ⟨k', e'⟩ := r
    rw [← List.cons_append, ← List.append_assoc] at h
    obtain ⟨f, phase, hpre, hnext, -, rfl⟩ := h.snoc_inv
    have hrun := ih hpre fun r hr => hmid r (List.mem_append_left _ hr)
    by_cases hk : k = k'
    · subst hk
      have hno := hmid (k, e') (by simp) rfl
      rw [hrun] at hnext
      cases e' <;> cases hnext
      · exact absurd rfl hno.1
      · exact absurd rfl hno.2
    · rw [Function.update_of_ne hk]
      exact hrun

theorem Accepts.uninterrupted (h : Accepts l f) : Uninterrupted l := by
  intro pre k e mid k' e' post hl he hmid
  rw [hl, ← List.singleton_append (l := post), ← List.append_assoc] at h
  obtain ⟨g, h⟩ := h.of_append
  obtain ⟨f', phase, h, -, hothers, -⟩ := h.snoc_inv
  exact (hothers k (h.still_running he hmid)).symm

end Grammar

/-- What identifies a process. -/
def PCB.key (p : PCB) : ℤ × ℤ := (p.pid, p.idFromFile)

/-- What a line of the log says about which process. -/
def Effect.record : Effect → Option ((ℤ × ℤ) × ProcessEvent)
  | .logged event _ p _ => some (p.key, event)
  | _ => none

def Effect.receivedKey : Effect → Option (ℤ × ℤ)
  | .received p => some p.key
  | _ => none

/-- The log tells what has become of the processes received: the one on the CPU runs, those in the
queue wait or are fresh, and all others are finished. -/
structure Tells (f : ℤ × ℤ → Phase) (log : List ((ℤ × ℤ) × ProcessEvent)) (cpu : Option PCB)
    (queue : List PCB) (received : List (ℤ × ℤ)) : Prop where
  accepts : Accepts log f
  cpu_running : ∀ p, cpu = some p → f p.key = .running ∧ p.startTime ≠ -1
  running_cpu : ∀ k, f k = .running → ∃ p, cpu = some p ∧ p.key = k
  queue_waiting : ∀ p ∈ queue, f p.key = if p.startTime = -1 then .fresh else .waiting
  unknown : ∀ k, k ∉ received → f k = .fresh
  known : ∀ p ∈ cpu.toList ++ queue, p.key ∈ received
  nodup : ((cpu.toList ++ queue).map PCB.key).Nodup

@[simp] theorem PCB.dispatched_key (p : PCB) (clk : ℤ) : (p.dispatched clk).key = p.key := by
  simp [PCB.key]

theorem PCB.dispatched_starts {q : PCB} {clk : ℤ} (hclk : clk ≠ -1) :
    (q.dispatched clk).startTime ≠ -1 := by
  unfold PCB.dispatched
  split
  · exact hclk
  · rename_i hold
    exact hold

namespace Tells

variable {f : ℤ × ℤ → Phase} {log : List ((ℤ × ℤ) × ProcessEvent)} {cpu : Option PCB}
  {queue rest : List PCB} {received : List (ℤ × ℤ)} {p p' q : PCB} {clk : ℤ}

theorem queue_ne (h : Tells f log (some p) queue received) : ∀ q ∈ queue, q.key ≠ p.key := by
  have hnodup : (p.key :: queue.map PCB.key).Nodup := h.nodup
  intro q hq heq
  exact (List.nodup_cons.mp hnodup).1 (heq ▸ List.mem_map_of_mem hq)

theorem perm (h : Tells f log cpu queue received) (hperm : rest.Perm queue) :
    Tells f log cpu rest received where
  accepts := h.accepts
  cpu_running := h.cpu_running
  running_cpu := h.running_cpu
  queue_waiting := fun p hp => h.queue_waiting p (hperm.subset hp)
  unknown := h.unknown
  known := fun p hp => h.known p ((hperm.append_left _).subset hp)
  nodup := ((hperm.append_left cpu.toList).map PCB.key).nodup_iff.mpr h.nodup

/-- Only the remaining time of the current process changes. -/
theorem reread (h : Tells f log (some p) queue received) (hkey : p'.key = p.key)
    (hstart : p'.startTime = p.startTime) : Tells f log (some p') queue received := by
  refine ⟨h.accepts, ?_, ?_, h.queue_waiting, h.unknown, ?_, ?_⟩
  · rintro q ⟨⟩
    rw [hkey, hstart]
    exact h.cpu_running p rfl
  · intro k hk
    obtain ⟨q, hq, rfl⟩ := h.running_cpu k hk
    cases hq
    exact ⟨p', rfl, hkey⟩
  · intro q hq
    rcases List.mem_cons.mp hq with rfl | hq
    · rw [hkey]
      exact h.known p List.mem_cons_self
    · exact h.known q (List.mem_cons_of_mem _ hq)
  · simpa [hkey] using h.nodup

/-- The current process leaves the CPU with the line `e`. -/
theorem leave (h : Tells f log (some p) queue received) {e : ProcessEvent} {phase : Phase}
    (hnext : Phase.running.next e = some phase) (hphase : phase ≠ .running) :
    Tells (Function.update f p.key phase) (log ++ [(p.key, e)]) none queue received := by
  obtain ⟨hrun, -⟩ := h.cpu_running p rfl
  have honly : ∀ k, f k = .running → k = p.key := by
    intro k hk
    obtain ⟨q, hq, rfl⟩ := h.running_cpu k hk
    cases hq
    rfl
  have hnodup : (p.key :: queue.map PCB.key).Nodup := h.nodup
  refine ⟨h.accepts.snoc (by rw [hrun]; exact hnext) honly, (fun q hq => by cases hq), ?_, ?_, ?_,
    ?_, ?_⟩
  · intro k hk
    by_cases hkp : k = p.key
    · rw [hkp, Function.update_self] at hk
      exact absurd hk hphase
    · rw [Function.update_of_ne hkp] at hk
      exact absurd (honly k hk) hkp
  · intro q hq
    rw [Function.update_of_ne (h.queue_ne q hq)]
    exact h.queue_waiting q hq
  · intro k hk
    have hkp : k ≠ p.key := by
      rintro rfl
      exact hk (h.known p List.mem_cons_self)
    rw [Function.update_of_ne hkp]
    exact h.unknown k hk
  · exact fun q hq => h.known q (List.mem_cons_of_mem _ hq)
  · exact (List.nodup_cons.mp hnodup).2

/-- A process joins the queue. -/
theorem join (h : Tells f log cpu queue received)
    (hphase : f p.key = if p.startTime = -1 then .fresh else .waiting)
    (hknown : p.key ∈ received) (hnew : ∀ q ∈ cpu.toList ++ queue, q.key ≠ p.key) :
    Tells f log cpu (p :: queue) received := by
  have hperm : (cpu.toList ++ p :: queue).Perm (p :: (cpu.toList ++ queue)) := List.perm_middle
  refine ⟨h.accepts, h.cpu_running, h.running_cpu, ?_, h.unknown, ?_, ?_⟩
  · intro q hq
    rcases List.mem_cons.mp hq with rfl | hq
    · exact hphase
    · exact h.queue_waiting q hq
  · intro q hq
    rcases List.mem_cons.mp (hperm.subset hq) with rfl | hq
    · exact hknown
    · exact h.known q hq
  · rw [(hperm.map PCB.key).nodup_iff, List.map_cons]
    refine List.nodup_cons.mpr ⟨fun hin => ?_, h.nodup⟩
    obtain ⟨q, hq, heq⟩ := List.mem_map.mp hin
    exact hnew q hq heq

/-- The current process is stopped and queued. -/
theorem stop (h : Tells f log (some p) queue received) (hkey : p'.key = p.key)
    (hstart : p'.startTime = p.startTime) :
    Tells (Function.update f p.key .waiting) (log ++ [(p.key, .stopped)]) none (p' :: queue)
      received := by
  have hne := (h.cpu_running p rfl).2
  refine (h.leave rfl (by decide)).join ?_ ?_ ?_
  · rw [hkey, Function.update_self, if_neg (hstart ▸ hne)]
  · rw [hkey]
    exact h.known p List.mem_cons_self
  · rw [hkey]
    exact h.queue_ne

/-- The current process ends. -/
theorem retire (h : Tells f log (some p) queue received) :
    Tells (Function.update f p.key .finished) (log ++ [(p.key, .finished)]) none queue received :=
  h.leave rfl (by decide)

/-- A new process is queued. -/
theorem arrive (h : Tells f log cpu queue received) (hnew : p.key ∉ received)
    (hstart : p.startTime = -1) : Tells f log cpu (p :: queue) (received ++ [p.key]) := by
  have hmore : Tells f log cpu queue (received ++ [p.key]) :=
    ⟨h.accepts, h.cpu_running, h.running_cpu, h.queue_waiting,
      fun k hk => h.unknown k fun hin => hk (List.mem_append_left _ hin),
      fun q hq => List.mem_append_left _ (h.known q hq), h.nodup⟩
  refine hmore.join ?_ (by simp) ?_
  · rw [if_pos hstart]
    exact h.unknown _ hnew
  · exact fun q hq heq => hnew (heq ▸ h.known q hq)

/-- The next process is dispatched, at a time that is not the sentinel. -/
theorem dispatch (h : Tells f log none queue received) (hq : queue.Perm (q :: rest))
    (hclk : clk ≠ -1) :
    Tells (Function.update f q.key .running) (log ++ [(q.key, dispatchEvent q)])
      (some (q.dispatched clk)) rest received := by
  have h := h.perm hq.symm
  have hkey := q.dispatched_key clk
  have hstart := PCB.dispatched_starts (q := q) hclk
  have hidle : ∀ k, f k ≠ .running := by
    intro k hk
    obtain ⟨p, hp, -⟩ := h.running_cpu k hk
    cases hp
  have hnext : (f q.key).next (dispatchEvent q) = some .running := by
    rw [h.queue_waiting q List.mem_cons_self]
    unfold dispatchEvent
    split <;> rfl
  have hnodup : (q.key :: rest.map PCB.key).Nodup := h.nodup
  refine ⟨h.accepts.snoc hnext fun k hk => absurd hk (hidle k), ?_, ?_, ?_, ?_, ?_, ?_⟩
  · rintro p ⟨⟩
    rw [hkey, Function.update_self]
    exact ⟨rfl, hstart⟩
  · intro k hk
    by_cases hkq : k = q.key
    · exact ⟨_, rfl, hkey.trans hkq.symm⟩
    · rw [Function.update_of_ne hkq] at hk
      exact absurd hk (hidle k)
  · intro p hp
    have hne : p.key ≠ q.key := by
      intro heq
      exact (List.nodup_cons.mp hnodup).1 (heq ▸ List.mem_map_of_mem hp)
    rw [Function.update_of_ne hne]
    exact h.queue_waiting p (List.mem_cons_of_mem _ hp)
  · intro k hk
    have hkq : k ≠ q.key := by
      rintro rfl
      exact hk (h.known q List.mem_cons_self)
    rw [Function.update_of_ne hkq]
    exact h.unknown k hk
  · intro p hp
    rcases List.mem_cons.mp hp with rfl | hp
    · rw [hkey]
      exact h.known q List.mem_cons_self
    · exact h.known p (List.mem_cons_of_mem _ hp)
  · simpa [hkey] using hnodup

end Tells

namespace Scheduler

variable {s s' : Scheduler} {p : PCB} {process : ℕ} {es : List Effect}

def log (s : Scheduler) : List ((ℤ × ℤ) × ProcessEvent) := s.trace.filterMap Effect.record

def receivedKeys (s : Scheduler) : List (ℤ × ℤ) := s.trace.filterMap Effect.receivedKey

/-- `start_time` is never the sentinel once a process has been dispatched. -/
def StartsSet (s : Scheduler) : Prop := ∀ p, .signal .cont p ∈ s.trace → p.startTime ≠ -1

/-- While `kill` succeeds and the heap is large enough, the log tells all. -/
structure Logging (s : Scheduler) : Prop extends Sound s where
  room : s.algorithm = .RR ∨ s.held.length ≤ 1024
  kills : ∀ b ∈ s.kills, b = true
  starts : s.StartsSet
  tells : ∃ f, Tells f s.log s.current s.ready s.receivedKeys

theorem sent_true {kills : List Bool} (hk : ∀ b ∈ kills, b = true) : kills.headD true = true := by
  cases kills with
  | nil => rfl
  | cons b rest => exact hk b List.mem_cons_self

/-- The projections of the trace after the effects `es`. -/
theorem trace_append (ht : s'.trace = s.trace ++ es) :
    s'.log = s.log ++ es.filterMap Effect.record ∧
      s'.receivedKeys = s.receivedKeys ++ es.filterMap Effect.receivedKey ∧
      (s.StartsSet → (∀ p, .signal .cont p ∈ es → p.startTime ≠ -1) → s'.StartsSet) := by
  refine ⟨by simp [log, ht], by simp [receivedKeys, ht], fun hs hes p hp => ?_⟩
  rw [ht, List.mem_append] at hp
  exact hp.elim (hs p) (hes p)

theorem contEffects_record (event : ProcessEvent) (clk : ℤ) (p : PCB) :
    (contEffects event clk true p).filterMap Effect.record = [(p.key, event)] ∧
      (contEffects event clk true p).filterMap Effect.receivedKey = [] := ⟨rfl, rfl⟩

theorem stopEffects_record (clk : ℤ) (p : PCB) :
    (stopEffects clk true p).filterMap Effect.record = [(p.key, .stopped)] ∧
      (stopEffects clk true p).filterMap Effect.receivedKey = [] := ⟨rfl, rfl⟩

theorem retireEffects_record (clk value : ℤ) (finished count : ℕ) (p : PCB) :
    (retireEffects clk finished count value p).filterMap Effect.record = [(p.key, .finished)] ∧
      (retireEffects clk finished count value p).filterMap Effect.receivedKey = [] := by
  unfold retireEffects
  split <;> exact ⟨rfl, rfl⟩

/-- The effects `es` add their records to the log. -/
theorem Logging.append (hs : Logging s) (hsound : Sound s')
    (hroom : s'.algorithm = .RR ∨ s'.held.length ≤ 1024) (hkills : ∀ b ∈ s'.kills, b = true)
    (ht : s'.trace = s.trace ++ es) (hes : ∀ p, .signal .cont p ∈ es → p.startTime ≠ -1)
    (htells : ∃ f, Tells f (s.log ++ es.filterMap Effect.record) s'.current s'.ready
      (s.receivedKeys ++ es.filterMap Effect.receivedKey)) : Logging s' := by
  obtain ⟨hlog, hrec, hstarts⟩ := trace_append ht
  refine ⟨hsound, hroom, hkills, hstarts hs.starts hes, ?_⟩
  rw [hlog, hrec]
  exact htells

theorem Logging.quiet (hs : Logging s) (hsound : Sound s')
    (hroom : s'.algorithm = .RR ∨ s'.held.length ≤ 1024) (ht : s'.trace = s.trace)
    (hk : s'.kills = s.kills) (htells : ∃ f, Tells f s.log s'.current s'.ready s.receivedKeys) :
    Logging s' := by
  refine hs.append hsound hroom (hk ▸ hs.kills) (ht.trans (List.append_nil _).symm) (by simp) ?_
  simpa using htells

/-- A process comes onto a free CPU. -/
theorem logging_dispatched {q : PCB} (hs : Logging s) (hsound : Sound s')
    (hroom : s'.algorithm = .RR ∨ s'.held.length ≤ 1024) (hclk : s.clockValue ≠ -1)
    (hc : s.current = none) (hq : Takes s s.ready q s'.ready)
    (hc' : s'.current = some (q.dispatched s.clockValue))
    (ht : s'.trace = s.trace ++ contEffects (dispatchEvent q) s.clockValue (s.kills.headD true)
      (q.dispatched s.clockValue))
    (hk : s'.kills = s.kills.tail) : Logging s' := by
  obtain ⟨f, htells⟩ := hs.tells
  rw [sent_true hs.kills] at ht
  obtain ⟨hone, hnone⟩ := contEffects_record (dispatchEvent q) s.clockValue
    (q.dispatched s.clockValue)
  refine hs.append hsound hroom ?_ ht ?_ ?_
  · exact fun b hb => hs.kills b (List.mem_of_mem_tail (hk ▸ hb))
  · intro p hp
    simp only [contEffects, if_true, List.mem_cons, List.not_mem_nil, or_false, reduceCtorEq,
      Effect.signal.injEq, true_and] at hp
    rw [hp]
    exact PCB.dispatched_starts hclk
  · rw [hone, hnone, List.append_nil, hc']
    rw [hc] at htells
    rw [PCB.dispatched_key]
    exact ⟨_, htells.dispatch hq.perm hclk⟩

/-- A process takes the place of the current one, for which there is room. -/
theorem logging_replaced {p q : PCB} {value : ℤ} {queued : List PCB} (hs : Logging s)
    (hsound : Sound s') (hroom : s'.algorithm = .RR ∨ s'.held.length ≤ 1024)
    (hclk : s.clockValue ≠ -1) (hc : s.current = some p)
    (hp : Joins s (p.preempted s.clockValue value) queued) (hq : Takes s queued q s'.ready)
    (hc' : s'.current = some (q.dispatched s.clockValue))
    (ht : s'.trace = s.trace ++
      stopEffects s.clockValue (s.kills.headD true) (p.preempted s.clockValue value) ++
      contEffects (dispatchEvent q) s.clockValue (s.kills.tail.headD true)
        (q.dispatched s.clockValue))
    (hk : s'.kills = s.kills.tail.tail) : Logging s' := by
  obtain ⟨f, htells⟩ := hs.tells
  have hkills : ∀ b ∈ s.kills.tail, b = true :=
    fun b hb => hs.kills b (List.mem_of_mem_tail hb)
  rw [sent_true hs.kills, sent_true hkills, List.append_assoc] at ht
  obtain ⟨hone, hnone⟩ := contEffects_record (dispatchEvent q) s.clockValue
    (q.dispatched s.clockValue)
  obtain ⟨hone', hnone'⟩ := stopEffects_record s.clockValue (p.preempted s.clockValue value)
  have hfits : HasRoom s := by
    rcases hs.room with ha | hlen
    · exact Or.inl ha
    · rw [held_some hc, List.length_cons] at hlen
      exact Or.inr (by omega)
  refine hs.append hsound hroom ?_ ht ?_ ?_
  · exact fun b hb => hkills b (List.mem_of_mem_tail (hk ▸ hb))
  · intro p hp
    simp only [contEffects, stopEffects, if_true, List.mem_append, List.mem_cons,
      List.not_mem_nil, or_false, reduceCtorEq, Effect.signal.injEq, true_and, false_and,
      false_or] at hp
    rw [hp]
    exact PCB.dispatched_starts hclk
  · rw [List.filterMap_append, List.filterMap_append, hone, hnone, hone', hnone',
      List.append_nil, List.append_nil, hc', ← List.append_assoc]
    rw [hc] at htells
    have hstop : Tells _ _ none (p.preempted s.clockValue value :: s.ready) _ :=
      htells.stop rfl rfl
    rw [PCB.dispatched_key]
    exact ⟨_, (hstop.perm (hp.perm hfits)).dispatch hq.perm hclk⟩

theorem logging_moved (hs : Logging s) (hclk : s.clockValue ≠ -1) (h : Moved s s') :
    Logging s' := by
  obtain ⟨f, htells⟩ := hs.tells
  have hmove : Move s s' := ⟨h.sound, h.books, h.outcome.imp And.left Turn.switched⟩
  have hroom : s'.algorithm = .RR ∨ s'.held.length ≤ 1024 := by
    have hlen := (move_held hs.room hmove).length_eq
    simp only [heldIds, List.length_map] at hlen
    rw [h.books.algorithm, hlen]
    exact hs.room
  rcases h.outcome with ⟨hread, htimes, hk⟩ | hturn
  · refine hs.quiet h.sound hroom hread.trace hk ⟨f, ?_⟩
    rw [hread.ready]
    rcases hread.current with heq | ⟨p, value, hc, heq⟩
    · rwa [heq]
    · rw [heq]
      rw [hc] at htells
      exact htells.reread rfl rfl
  · cases hturn with
    | kept p hc hc' hr ht hk _ =>
      refine hs.quiet h.sound hroom ht hk ⟨f, ?_⟩
      rw [hc', hr]
      rw [hc] at htells
      exact htells.reread rfl rfl
    | idle hc hr hc' hr' ht hk _ =>
      refine hs.quiet h.sound hroom ht hk ⟨f, ?_⟩
      rw [hc', hr']
      rwa [hc, hr] at htells
    | dispatched q hc hq hc' ht hk _ =>
      exact logging_dispatched hs h.sound hroom hclk hc hq hc' ht hk
    | replaced p q value queued hc hp hq hc' ht hk _ =>
      exact logging_replaced hs h.sound hroom hclk hc hp hq hc' ht hk

theorem logging_moveds (hs : Logging s) (hclk : s.clockValue ≠ -1) (h : ReflTransGen Moved s s') :
    Logging s' ∧ s'.clockValue = s.clockValue := by
  induction h with
  | refl => exact ⟨hs, rfl⟩
  | tail _ hm ih =>
    exact ⟨logging_moved ih.1 (ih.2 ▸ hclk) hm, hm.books.clockValue.trans ih.2⟩

theorem logging_arrival (hs : Logging s) (hsem : 0 < p.syncSemid) (hnew : p.key ∉ s.receivedKeys)
    (hlen : s.held.length < 1024) : Logging (s.handleProcessArrival p) := by
  obtain ⟨f, htells⟩ := hs.tells
  obtain ⟨hsound, hb, hc, -, hperm, ht⟩ := handleProcessArrival_spec hs.toSound hsem
  obtain ⟨-, hk⟩ := handleProcessArrival_times s p
  have hfits : HasRoom s := by
    refine Or.inr (Nat.lt_of_le_of_lt ?_ hlen)
    simp [held]
  have hready := hperm hfits
  refine hs.append hsound (Or.inr ?_) (hk ▸ hs.kills) ht (by simp) ⟨f, ?_⟩
  · have hlen' := hready.length_eq
    simp only [held, hc, List.length_append, List.length_cons] at hlen hlen' ⊢
    omega
  · have harrive := (htells.arrive (p := p.arrived) hnew rfl).perm hready
    rw [hc]
    exact (List.append_nil s.log).symm ▸ harrive

theorem logging_retire (hs : Logging s) (hc : s.currentProcess = some process) :
    Logging (s.retire process) := by
  obtain ⟨f, htells⟩ := hs.tells
  obtain ⟨value, hsound, hb, hnone, hr, ht⟩ := retire_spec hs.toSound hc
  obtain ⟨-, hk⟩ := retire_times s process
  obtain ⟨hone, hno⟩ := retireEffects_record s.clockValue value (s.finishedProcesses + 1)
    s.processCount (s.pcbs process)
  have hcur := current_some hc
  refine hs.append hsound ?_ (hk ▸ hs.kills) ht ?_ ?_
  · rw [hb.algorithm]
    refine hs.room.imp_right fun hlen => ?_
    rw [held_some hcur] at hlen
    rw [held_none (current_eq_none.mpr hnone), hr]
    exact Nat.le_of_succ_le hlen
  · intro p hp
    unfold retireEffects at hp
    split at hp <;> simp at hp
  · rw [hone, hno, List.append_nil, hr, current_eq_none.mpr hnone]
    rw [hcur] at htells
    exact ⟨_, htells.retire⟩

theorem Logging.withClock (hs : Logging s) (clk : ℤ) : Logging { s with clockValue := clk } :=
  ⟨hs.toSound.withClock clk, hs.room, hs.kills, hs.starts, hs.tells⟩

theorem Logging.feed (hs : Logging s) {i : Inputs} (hi : ∀ b ∈ i.kills, b = true) :
    Logging (s.feed i) :=
  ⟨hs.toSound.feed i, hs.room, hi, hs.starts, hs.tells⟩

theorem logging_receive (hs : Logging s) (hclk : s.current ≠ none → s.clockValue ≠ -1)
    (hsem : 0 < p.syncSemid) (hnew : p.key ∉ s.receivedKeys) (hlen : s.held.length < 1024) :
    Logging (s.receiveMessage p) := by
  have harr := logging_arrival hs hsem hnew hlen
  obtain ⟨-, hb, hc, -⟩ := handleProcessArrival_spec hs.toSound hsem
  obtain ⟨hmoved, hor⟩ := preemptOnArrival_moved harr.toSound
  have hnow : Logging (s.handleProcessArrival p).preemptOnArrival := by
    rcases hor with heq | ⟨-, hcur, -⟩
    · rw [heq]
      exact harr
    · rw [hc] at hcur
      exact (logging_moveds harr (hb.clockValue.symm ▸ hclk hcur) hmoved).1
  obtain ⟨_, heq⟩ := receiveMessage_eq s p
  rw [heq]
  exact hnow.withClock _

theorem logging_complete (hs : Logging s) (hclk : s.clockValue ≠ -1) :
    Logging s.completeCurrent := by
  rcases completeCurrent_moved hs.toSound with ⟨-, heq⟩ | ⟨process, hc, heq | ⟨-, hmoved⟩⟩
  · rw [heq]
    exact hs
  · rw [heq]
    exact logging_retire hs hc
  · obtain ⟨_, -, hb, -⟩ := retire_spec hs.toSound hc
    have hsame : (s.retire process).clockValue = s.clockValue := hb.clockValue
    exact logging_moved (logging_retire hs hc) (hsame ▸ hclk) hmoved

theorem logging_grantTick (hs : Logging s) : Logging s.grantTick := by
  have hsound := hs.toSound.grantTick
  cases hc : s.currentProcess with
  | none =>
    rw [grantTick_none hc]
    exact hs
  | some process =>
    rw [grantTick_some hc] at hsound ⊢
    obtain ⟨f, htells⟩ := hs.tells
    refine hs.append hsound hs.room hs.kills rfl (by simp) ⟨f, ?_⟩
    exact (List.append_nil s.log).symm ▸ (List.append_nil s.receivedKeys).symm ▸ htells

/-- No process is ever stopped. -/
def NeverStops (s : Scheduler) : Prop := ∀ r ∈ s.log, r.2 ≠ .stopped

theorem NeverStops.append (hs : NeverStops s) (ht : s'.trace = s.trace ++ es)
    (hes : ∀ r ∈ es.filterMap Effect.record, r.2 ≠ .stopped) : NeverStops s' := by
  intro r hr
  rw [(trace_append ht).1, List.mem_append] at hr
  exact hr.elim (hs r) (hes r)

theorem neverStops_same (hs : NeverStops s) (ht : s'.trace = s.trace) : NeverStops s' :=
  hs.append (ht.trans (List.append_nil _).symm) (by simp)

theorem neverStops_retire (hs : NeverStops s) (hsound : Sound s)
    (hc : s.currentProcess = some process) : NeverStops (s.retire process) := by
  obtain ⟨value, -, -, -, -, ht⟩ := retire_spec hsound hc
  refine hs.append ht ?_
  rw [(retireEffects_record _ _ _ _ _).1]
  simp

/-- HPF switches only to a CPU that is free. -/
theorem neverStops_runHPF (hs : NeverStops s) (hsound : Sound s) : NeverStops s.runHPFAlgorithm := by
  unfold runHPFAlgorithm
  split
  · rename_i hidle
    have hnone := current_eq_none.mpr hidle.1
    obtain ⟨-, -, hturn⟩ := contextSwitching_turn hsound
    cases hturn with
    | kept p hc => simp [hnone] at hc
    | idle _ _ _ _ ht _ _ => exact neverStops_same hs ht
    | dispatched q _ _ _ ht _ _ =>
      refine hs.append ht fun r hr => ?_
      have hne : dispatchEvent q ≠ .stopped := by
        rcases dispatchEvent_cases q with heq | heq <;> simp [heq]
      generalize s.kills.headD true = sent at hr
      cases sent with
      | false => cases hr
      | true =>
        rw [(contEffects_record _ _ _).1, List.mem_singleton] at hr
        rw [hr]
        exact hne
    | replaced p _ _ _ hc => simp [hnone] at hc
  · exact hs

end Scheduler

/-- Messages with a valid semaphore about processes not received before, while fewer than 1024 are
unfinished; and `kill` succeeds. -/
def Loggable (l : Loop) : LoopAct → Prop
  | .receive p i => 0 < p.syncSemid ∧ p.key ∉ l.scheduler.receivedKeys ∧
      l.scheduler.held.length < 1024 ∧ ∀ b ∈ i.kills, b = true
  | .sigusr2 i => ∀ b ∈ i.kills, b = true
  | .advance i => ∀ b ∈ i.kills, b = true
  | _ => True

variable {l l' : Loop} {a : LoopAct}

theorem Loggable.semids (h : Loggable l a) : SemidsValid l a := by
  cases a with
  | receive p i => exact h.1
  | _ => trivial

theorem logging_step (hl : Clocked l) (hs : Logging l.scheduler) (hok : Loggable l a)
    (h : LoopStep l a l') : Logging l'.scheduler := by
  have h0 := hl.currentTime
  have hle := hl.currentTime_le
  have hpos : ∀ {x : ℤ}, 0 ≤ x → x ≠ -1 := by
    intro x hx
    omega
  cases h with
  | sigusr1 hp =>
    exact ⟨sound_preserved.generator _ hs.toSound, hs.room, hs.kills, hs.starts, hs.tells⟩
  | @sigusr2 i hp =>
    have hclk : l.clock ≠ -1 := by omega
    exact logging_complete ((hs.feed hok).withClock l.clock) hclk
  | @receive p i hp =>
    obtain ⟨hsem, hnew, hlen, hi⟩ := hok
    exact logging_receive (hs.feed hi) (fun hc => hpos (hl.current hc)) hsem hnew hlen
  | assign hp => exact hs.withClock _
  | @runAlgorithm i hp =>
    have hfeed := hs.feed hok
    exact (logging_moveds hfeed (hpos (hl.run hp)) (runAlgorithm_moved hfeed.toSound)).1
  | grant hp => exact logging_grantTick hs
  | @refresh i hp =>
    have hfeed := hs.feed hok
    by_cases hc : l.scheduler.current = none
    · have hcp := current_eq_none.mp hc
      have hsame : (l.scheduler.feed i).updateCurrent = l.scheduler.feed i := by
        simp only [updateCurrent, Scheduler.feed, hcp]
      exact hsame.symm ▸ hfeed
    · exact (logging_moveds hfeed (hpos (hl.current hc)) (updateCurrent_moved hfeed.toSound)).1
  | _ => exact hs

/-- What is claimed of the log. -/
structure WellOrdered (s : Scheduler) : Prop where
  own : OwnRecords s.log
  uninterrupted : Uninterrupted s.log
  starts : s.StartsSet

theorem Scheduler.Logging.wellOrdered {s : Scheduler} (hs : Logging s) : WellOrdered s := by
  obtain ⟨f, htells⟩ := hs.tells
  exact ⟨htells.accepts.ownRecords, htells.accepts.uninterrupted, hs.starts⟩

theorem neverStops_step (hn : NeverStops l.scheduler) (hs : Sound l.scheduler)
    (ha : l.scheduler.algorithm = .HPF) (hok : SemidsValid l a) (h : LoopStep l a l') :
    NeverStops l'.scheduler := by
  have hnever : l.scheduler.algorithm ≠ .SRTN := by simp [ha]
  cases h with
  | @sigusr2 i hp =>
    have hclk := (hs.feed i).withClock l.clock
    have hfeed : NeverStops { l.scheduler.feed i with clockValue := l.clock } := hn
    show NeverStops (completeCurrent _)
    rcases Option.eq_none_or_eq_some l.scheduler.currentProcess with hc | ⟨process, hc⟩
    · have hnone : completeCurrent { l.scheduler.feed i with clockValue := l.clock } = _ :=
        completeCurrent_none hc
      rw [hnone]
      exact hfeed
    · have hretire : completeCurrent { l.scheduler.feed i with clockValue := l.clock } = _ :=
        completeCurrent_of_ne_SRTN hnever hc
      rw [hretire]
      exact neverStops_retire hfeed hclk hc
  | @receive p i hp =>
    have hfeed := hs.feed i
    obtain ⟨-, -, -, -, -, ht⟩ := handleProcessArrival_spec hfeed hok
    have hstored : NeverStops (handleProcessArrival (l.scheduler.feed i) p) := by
      have hbefore : NeverStops (l.scheduler.feed i) := hn
      exact hbefore.append ht (by simp [Effect.record])
    show NeverStops (receiveMessage _ p)
    obtain ⟨_, heq⟩ := forgetTick_eq ((l.scheduler.feed i).handleProcessArrival p)
    rw [receiveMessage_of_ne_SRTN (s := l.scheduler.feed i) hnever, heq]
    exact hstored
  | @runAlgorithm i hp =>
    have hrun : (l.scheduler.feed i).runAlgorithm = (l.scheduler.feed i).runHPFAlgorithm := by
      simp only [Scheduler.runAlgorithm, Scheduler.feed, ha]
    show NeverStops (l.scheduler.feed i).runAlgorithm
    rw [hrun]
    exact neverStops_runHPF hn (hs.feed i)
  | grant hp =>
    cases hc : l.scheduler.currentProcess with
    | none =>
      rw [grantTick_none hc]
      exact hn
    | some process =>
      rw [grantTick_some hc]
      have hmore : (l.scheduler.emit (.grant (l.scheduler.pcbs process))).trace =
          l.scheduler.trace ++ [.grant (l.scheduler.pcbs process)] := rfl
      exact hn.append hmore (by simp [Effect.record])
  | @refresh i hp => exact neverStops_same hn (updateCurrent_reread (hs.feed i)).trace
  | _ => exact hn

theorem tells_nothing : Tells (fun _ => .fresh) [] none [] [] where
  accepts := .nil
  cpu_running := by simp
  running_cpu := by simp
  queue_waiting := by simp
  unknown := by simp
  known := by simp
  nodup := List.nodup_nil

theorem logging_initial (algorithm : SchedulingAlgorithm) (quantum clk : ℤ) :
    Logging (Scheduler.initial algorithm quantum clk) := by
  have hready : (Scheduler.initial algorithm quantum clk).ready = [] := by
    cases algorithm <;> rfl
  have hheld := initial_held algorithm quantum clk
  refine ⟨sound_initial algorithm quantum clk, Or.inr ?_, ?_, ?_, fun _ => .fresh, ?_⟩
  · rw [hheld]
    exact Nat.zero_le _
  · intro b hb
    cases hb
  · intro p hp
    cases hp
  · rw [hready]
    exact tells_nothing

/-- The log is well ordered in every run of every algorithm, and in HPF runs nothing is ever
stopped. -/
theorem wellOrdered_always (algorithm : SchedulingAlgorithm) (quantum : ℤ) (clk : ℕ)
    (as : List LoopAct) :
    Always (Restrict Loggable LoopStep) (Loop.initial algorithm quantum clk) as fun l =>
      WellOrdered l.scheduler ∧ (algorithm = .HPF → NeverStops l.scheduler) := by
  intro pre l _ ht
  have hinv := ht.invariant (P := fun l => Clocked l ∧ Logging l.scheduler ∧
    Configured algorithm quantum l.scheduler ∧ (algorithm = .HPF → NeverStops l.scheduler)) ?_ ?_
  · exact ⟨hinv.2.1.wellOrdered, hinv.2.2.2⟩
  · rintro l a l' ⟨hl, hlog, hconf, hhpf⟩ ⟨hok, hstep⟩
    refine ⟨clocked_step hl hok.semids hstep, logging_step hl hlog hok hstep, ?_, ?_⟩
    · refine (configured_preserved algorithm quantum).step hconf ?_ hstep
      rintro p i rfl
      exact hok.1
    · intro ha
      exact neverStops_step (hhpf ha) hl.sound (hconf.algorithm_eq.trans ha) hok.semids hstep
  · refine ⟨clocked_initial algorithm quantum (Int.natCast_nonneg clk),
      logging_initial algorithm quantum clk, ⟨sound_initial algorithm quantum clk, rfl, rfl⟩, ?_⟩
    intro _ r hr
    cases hr

end KernelSim
