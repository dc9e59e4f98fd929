import KernelSim.Generator.Intake
import KernelSim.Scheduler.Shutdown

/-! The generator as one of two parties stands for the loop with its arrays: it takes the loop's
steps, and `temp_queue` is restored at once. -/
namespace KernelSim
open Runs RingBuffer

namespace Intake

/-- The queues as lists, in the order in which they are emptied. -/
def toSender (g : Intake) : Sender :=
  { pq := g.pq.drain
    waitingQueue := match g.point with
      | .restore => g.waitingQueue.toList ++ g.tempQueue.toList
      | _ => g.waitingQueue.toList
    tempQueue := match g.point with
      | .serve => g.tempQueue.toList
      | _ => []
    lastTick := g.lastTick
    once := g.once
    point := match g.point with
      | .top => .top
      | .serve => .serve
      | .restore | .admitArrived => .admitArrived
      | .check => .check }

end Intake

/-- The messages among what the generator sends. -/
def Sent.message? : Option Sent → Option PCB
  | some (.message p) => some p
  | _ => none

/-- A step of the party, labelled with the time it is taken at and what it sends. -/
def SenderMoves (s : Sender) (l : ℤ × SenderAct × Option Sent) (s' : Sender) : Prop :=
  s.next l.1 l.2.1 = some (s', l.2.2)

variable {g g' : Intake} {a : IntakeAct} {as : List IntakeAct} {lines : List Process}

/-- A step of the loop is a step of the party that sends the same, or none. -/
theorem toSender_step (hs : g.Sound) (h : IntakeStep g a g') :
    (g'.toSender = g.toSender ∧ g'.sent = g.sent) ∨
      ∃ b out, SenderMoves g.toSender (g.clock, b, out) g'.toSender ∧
        g'.sent = g.sent ++ (Sent.message? out).toList := by
  cases h with
  | tick => exact Or.inl ⟨rfl, rfl⟩
  | newTick hp hne =>
    refine Or.inr ⟨.readClock, none, ?_, (List.append_nil _).symm⟩
    have htemp : (queueInit 100 emptyFront).toList = [] := rfl
    simp [SenderMoves, Intake.toSender, Sender.next, hp, hne, htemp]
  | sameTick hp heq =>
    refine Or.inr ⟨.readClock, none, ?_, (List.append_nil _).symm⟩
    simp [SenderMoves, Intake.toSender, Sender.next, hp, heq]
  | @serveGranted pid shmId hp hq =>
    obtain ⟨-, hlist⟩ := queueDequeue_spec hs.waiting (queueSize_pos hq)
    refine Or.inr ⟨.serve true pid shmId,
      some (.message { queueFront g.waitingQueue with pid, shmId }), ?_, rfl⟩
    simp [SenderMoves, Intake.toSender, Sender.next, hp, hlist]
  | @serveRefused pid shmId hp hq =>
    obtain ⟨-, hlist⟩ := queueDequeue_spec hs.waiting (queueSize_pos hq)
    obtain ⟨-, hlist'⟩ := queueEnqueue_spec hs.temp (queueFront g.waitingQueue)
    refine Or.inr ⟨.serve false pid shmId, none, ?_, (List.append_nil _).symm⟩
    simp [SenderMoves, Intake.toSender, Sender.next, hp, hlist, hlist']
  | served hp hq =>
    have hnil := queueEmpty_iff.mp hq
    refine Or.inr ⟨.serve false 0 0, none, ?_, (List.append_nil _).symm⟩
    simp [SenderMoves, Intake.toSender, Sender.next, hp, hnil]
  | restore hp hq =>
    obtain ⟨-, hlist⟩ := queueDequeue_spec hs.temp (queueSize_pos hq)
    obtain ⟨-, hlist'⟩ := queueEnqueue_spec hs.waiting (queueFront g.tempQueue)
    refine Or.inl ⟨?_, rfl⟩
    simp [Intake.toSender, hp, hlist, hlist']
  | restored hp hq =>
    have hnil := queueEmpty_iff.mp hq
    refine Or.inl ⟨?_, rfl⟩
    simp [Intake.toSender, hp, hnil]
  | @admitGranted pid shmId syncSemid hp hq harr hsem =>
    refine Or.inr ⟨.admitArrived true pid shmId syncSemid,
      some (.message ((pqTop g.pq).newPcb pid shmId syncSemid)), ?_, rfl⟩
    simp [SenderMoves, Intake.toSender, Sender.next, hp, hsem, PriorityQueue.drain_cons hq, harr]
  | @admitRefused pid shmId syncSemid hp hq harr hsem =>
    obtain ⟨-, hlist⟩ := queueEnqueue_spec hs.waiting ((pqTop g.pq).newPcb pid shmId syncSemid)
    refine Or.inr ⟨.admitArrived false pid shmId syncSemid, none, ?_, (List.append_nil _).symm⟩
    simp [SenderMoves, Intake.toSender, Sender.next, hp, hsem, PriorityQueue.drain_cons hq, harr,
      hlist]
  | post hp hnone =>
    refine Or.inr ⟨.post, some .permit, ?_, (List.append_nil _).symm⟩
    have hlate : ∀ p ∈ g.pq.drain.head?, g.lastTick < p.arrivalTime := by
      intro p hp
      cases hq : pqEmpty g.pq with
      | true =>
        rw [PriorityQueue.drain_nil hq] at hp
        cases hp
      | false =>
        rw [PriorityQueue.drain_cons hq] at hp
        cases hp
        simpa [hq] using hnone
    simp only [SenderMoves, Intake.toSender, Sender.next, hp, true_and]
    rw [if_pos hlate]
  | announce hp hpq hq honce =>
    have hnil := queueEmpty_iff.mp hq
    refine Or.inr ⟨.check, some .sigusr1, ?_, (List.append_nil _).symm⟩
    simp [SenderMoves, Intake.toSender, Sender.next, hp, hnil, honce, PriorityQueue.drain_nil hpq]
  | again hp hno =>
    refine Or.inr ⟨.check, none, ?_, (List.append_nil _).symm⟩
    have hbusy : ¬ (g.pq.drain.isEmpty = true ∧ g.waitingQueue.toList.isEmpty = true ∧
        g.once = true) := by
      rintro ⟨hpq, hq, honce⟩
      refine hno ⟨?_, queueEmpty_iff.mpr (List.isEmpty_iff.mp hq), honce⟩
      by_contra hne
      rw [Bool.not_eq_true] at hne
      rw [PriorityQueue.drain_cons hne] at hpq
      cases hpq
    simp only [SenderMoves, Intake.toSender, Sender.next, hp, if_true]
    rw [if_neg hbusy]

/-- Every run of the loop is a run of the party, with the same messages. -/
theorem toSender_run (clk : ℤ) (hv : ∀ p ∈ lines, 0 ≤ p.arrivalTime ∧ p.arrivalTime < 2 ^ 31)
    (h : Trace IntakeStep (Intake.initial clk lines) as g) :
    ∃ ls, Trace SenderMoves (Intake.initial clk lines).toSender ls g.toSender ∧
      g.sent = ls.filterMap (fun l => Sent.message? l.2.2) := by
  let Q : Intake → Prop := fun g => IntakeInv lines g ∧
    ∃ ls, Trace SenderMoves (Intake.initial clk lines).toSender ls g.toSender ∧
      g.sent = ls.filterMap (fun l => Sent.message? l.2.2)
  have hrun : Q g := by
    refine h.invariant (P := Q) ?_ ⟨intakeInv_initial clk hv, [], .refl, rfl⟩
    rintro g a g' ⟨hi, ls, hrun, hsent⟩ hstep
    refine ⟨intakeInv_step hi hstep, ?_⟩
    rcases toSender_step hi.toSound hstep with ⟨heq, hsame⟩ | ⟨b, out, hmove, hmore⟩
    · exact ⟨ls, heq ▸ hrun, hsame.trans hsent⟩
    · refine ⟨ls ++ [(g.clock, b, out)], hrun.snoc hmove, ?_⟩
      rw [hmore, hsent, List.filterMap_append]
      cases out with
      | none => rfl
      | some m => cases m <;> rfl
  exact hrun.2

end KernelSim
