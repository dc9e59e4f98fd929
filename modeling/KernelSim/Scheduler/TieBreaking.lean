import KernelSim.Scheduler.HeapOrder
import KernelSim.Scheduler.ReadyHeap

/-! Which of the processes with the least key comes out of the ready heap. -/
namespace KernelSim
open Runs BinaryHeap MinHeap

namespace SchedulingAlgorithm

/-- The documented order: by key, and by process id where the keys are equal. -/
def Before (algorithm : SchedulingAlgorithm) (p q : PCB) : Prop :=
  algorithm.key p < algorithm.key q ∨
    algorithm.key p = algorithm.key q ∧ p.idFromFile ≤ q.idFromFile

/-- Only one of the processes has the least key. -/
def LeastOnce (algorithm : SchedulingAlgorithm) (ps : List PCB) : Prop :=
  ∀ p ∈ ps, ∀ q ∈ ps, (∀ r ∈ ps, algorithm.key p ≤ algorithm.key r) →
    algorithm.key q = algorithm.key p → q.idFromFile = p.idFromFile

/-- The processes that go in have keys in range and ids that are not in the heap. -/
def NewProcess (algorithm : SchedulingAlgorithm) (h : HeapHistory PCB) : HeapCall PCB → Prop
  | .insert p => algorithm.InRange p ∧ ∀ q ∈ h.heap.toList, q.idFromFile ≠ p.idFromFile
  | .extract => True

instance (algorithm : SchedulingAlgorithm) : ∀ h call, Decidable (algorithm.NewProcess h call)
  | h, .insert p => inferInstanceAs (Decidable ((0 ≤ algorithm.key p ∧ algorithm.key p < 2 ^ 31) ∧
      ∀ q ∈ h.heap.toList, q.idFromFile ≠ p.idFromFile))
  | _, .extract => isTrue trivial

/-- Calls on the heap with the comparator of the algorithm. -/
def HeapStep (algorithm : SchedulingAlgorithm) :
    HeapHistory PCB → HeapCall PCB → HeapHistory PCB → Prop :=
  Guarded algorithm.NewProcess (HeapHistory.next algorithm.comparator)

/-- A process that `extract_min` returns comes before all that were in the heap. -/
def ReturnsLeastPair (algorithm : SchedulingAlgorithm) (h : HeapHistory PCB) :
    HeapCall PCB → Prop
  | .extract => ∀ p, (extractMin algorithm.comparator h.heap).1 = some p →
      ∀ q ∈ h.heap.toList, algorithm.Before p q
  | .insert _ => True

/-- `extract_min` is called where only one process has the least key. -/
def NoTie (algorithm : SchedulingAlgorithm) (h : HeapHistory PCB) : HeapCall PCB → Prop
  | .extract => algorithm.LeastOnce h.heap.toList
  | .insert _ => True

end SchedulingAlgorithm

open SchedulingAlgorithm

variable {algorithm : SchedulingAlgorithm} {h h' : HeapHistory PCB} {calls : List (HeapCall PCB)}
  {heap : MinHeap PCB} {p q : PCB} {ps : List PCB}

theorem comparator_preorder (algorithm : SchedulingAlgorithm) :
    TotalPreorderOn algorithm.comparator algorithm.InRange :=
  totalPreorderOn_of_key fun _ _ => comparator_lt

theorem historyInv_trace {junk : PCB}
    (ht : Trace algorithm.HeapStep (.initial junk) calls h) :
    HistoryInv algorithm.comparator algorithm.InRange h := by
  refine ht.invariant ?_ ⟨⟨fun p hp => absurd hp List.not_mem_nil,
    fun k _ hk => absurd hk (Nat.not_lt_zero k)⟩, .refl _⟩
  rintro h call h' hinv ⟨hok, hstep⟩
  refine historyInv_step (comparator_preorder algorithm) hinv ?_ hstep
  rintro p rfl
  exact hok.1

/-- The process returned has the least key, whatever its id. -/
theorem extractMin_key_le (ho : MinHeap.InOrder algorithm.comparator algorithm.InRange heap)
    (hp : (extractMin algorithm.comparator heap).1 = some p) (hq : q ∈ heap.toList) :
    p ∈ heap.toList ∧ algorithm.key p ≤ algorithm.key q := by
  obtain ⟨hne, rfl⟩ := extractMin_some hp
  have hroot : heap.processes 0 ∈ heap.toList := mem_toList.mpr ⟨0, hne, rfl⟩
  have hle := ho.root_le (comparator_preorder algorithm) q hq
  refine ⟨hroot, ?_⟩
  exact (le_iff_key (S := algorithm.InRange) (fun _ _ => comparator_lt) (ho.admitted _ hroot)
    (ho.admitted q hq)).mp hle

theorem returnsLeastPair_of_leastOnce
    (ho : MinHeap.InOrder algorithm.comparator algorithm.InRange h.heap)
    (honce : algorithm.LeastOnce h.heap.toList) : algorithm.ReturnsLeastPair h .extract := by
  intro p hp q hq
  have hmem := (extractMin_key_le ho hp hq).1
  have hleast : ∀ r ∈ h.heap.toList, algorithm.key p ≤ algorithm.key r :=
    fun r hr => (extractMin_key_le ho hp hr).2
  rcases lt_or_eq_of_le (hleast q hq) with hlt | heq
  · exact Or.inl hlt
  · exact Or.inr ⟨heq, le_of_eq (honce p hmem q hq hleast heq.symm).symm⟩

/-! Where two processes share the least key, the one with the higher id comes out if it went in
first. -/

theorem insert_first (algorithm : SchedulingAlgorithm) (p : PCB) (hzero : heap.size = 0)
    (hroom : 0 < heap.capacity) :
    (insertProcessMinHeap algorithm.comparator heap p).processes 0 = p ∧
      (insertProcessMinHeap algorithm.comparator heap p).size = 1 := by
  rw [insert_eq (by omega), hzero]
  refine ⟨?_, rfl⟩
  show Function.update heap.processes 0 p 0 = p
  exact Function.update_self 0 p heap.processes

theorem insert_root (hne : 0 < heap.size) (hroom : heap.size < heap.capacity)
    (hge : ¬ algorithm.comparator p (heap.processes 0) < 0) :
    (insertProcessMinHeap algorithm.comparator heap p).processes 0 = heap.processes 0 := by
  have hzero : Function.update heap.processes heap.size p 0 = heap.processes 0 :=
    Function.update_of_ne (by omega) _ _
  rw [insert_eq hroom]
  dsimp only
  rw [siftUp_root hne, hzero]
  rwa [hzero, Function.update_self]

/-- Insertions of processes that are not less than the root leave it there. -/
theorem insertAll_root (ps : List PCB) (hne : 0 < h.heap.size)
    (hroom : h.heap.size + ps.length ≤ h.heap.capacity)
    (hids : ((h.heap.toList ++ ps).map PCB.idFromFile).Nodup)
    (hrange : ∀ p ∈ ps, algorithm.InRange p)
    (hge : ∀ p ∈ ps, ¬ algorithm.comparator p (h.heap.processes 0) < 0) :
    ∃ h', Trace algorithm.HeapStep h (ps.map .insert) h' ∧
      h'.heap.toList.Perm (h.heap.toList ++ ps) ∧ 0 < h'.heap.size ∧
      h'.heap.processes 0 = h.heap.processes 0 := by
  induction ps generalizing h with
  | nil => exact ⟨h, .refl, by simp, hne, rfl⟩
  | cons p ps ih =>
    rw [List.length_cons] at hroom
    have hlt : h.heap.size < h.heap.capacity := by omega
    let t : HeapHistory PCB :=
      { h with
        heap := insertProcessMinHeap algorithm.comparator h.heap p
        accepted := if h.heap.size < h.heap.capacity then h.accepted ++ [p] else h.accepted }
    have hperm : t.heap.toList.Perm (h.heap.toList ++ [p]) :=
      insert_perm algorithm.comparator p hlt
    have hsize : t.heap.size = h.heap.size + 1 := by
      have hlen := hperm.length_eq
      simpa only [List.length_append, MinHeap.length_toList, List.length_singleton] using hlen
    have hcap : t.heap.capacity = h.heap.capacity := insert_capacity
    have hroot : t.heap.processes 0 = h.heap.processes 0 :=
      insert_root hne hlt (hge p List.mem_cons_self)
    have hall : (t.heap.toList ++ ps).Perm (h.heap.toList ++ p :: ps) := by
      have happ := hperm.append_right ps
      rwa [List.append_assoc, List.singleton_append] at happ
    have hfirst : algorithm.HeapStep h (.insert p) t := by
      refine ⟨⟨hrange p List.mem_cons_self, ?_⟩, rfl⟩
      intro q hq heq
      rw [List.map_append, List.nodup_append] at hids
      exact hids.2.2 _ (List.mem_map_of_mem hq) _ (List.mem_map_of_mem List.mem_cons_self) heq
    obtain ⟨h', hrun, hperm', hne', hroot'⟩ := ih (h := t) (by omega) (by omega)
      ((hall.map _).nodup_iff.mpr hids) (fun q hq => hrange q (List.mem_cons_of_mem p hq))
      (fun q hq => hroot ▸ hge q (List.mem_cons_of_mem p hq))
    exact ⟨h', (Trace.refl.snoc hfirst).trans hrun, hperm'.trans hall, hne', hroot'.trans hroot⟩

/-- Whatever the tie, some order of arrivals makes the higher id come out. -/
theorem exists_wrong_of_tie (junk : PCB) (hids : (ps.map PCB.idFromFile).Nodup)
    (hrange : ∀ p ∈ ps, algorithm.InRange p) (hroom : ps.length ≤ 1024)
    (htie : ¬ algorithm.LeastOnce ps) :
    ∃ calls h, Trace algorithm.HeapStep (.initial junk) calls h ∧ h.heap.toList.Perm ps ∧
      ¬ algorithm.ReturnsLeastPair h .extract := by
  obtain ⟨high, hhigh, low, hlow, hleast, hkey, hid⟩ : ∃ high ∈ ps, ∃ low ∈ ps,
      (∀ r ∈ ps, algorithm.key high ≤ algorithm.key r) ∧
        algorithm.key low = algorithm.key high ∧ low.idFromFile < high.idFromFile := by
    simp only [LeastOnce, not_forall] at htie
    obtain ⟨p, hp, q, hq, hleast, hkey, hne⟩ := htie
    rcases lt_or_gt_of_ne hne with hlt | hgt
    · exact ⟨p, hp, q, hq, hleast, hkey, hlt⟩
    · exact ⟨q, hq, p, hp, fun r hr => hkey ▸ hleast r hr, hkey.symm, hgt⟩
  have hperm : ps.Perm (high :: ps.erase high) := List.perm_cons_erase hhigh
  have hlen := hperm.length_eq
  rw [List.length_cons] at hlen
  -- the higher id goes in first
  let h : HeapHistory PCB :=
    { heap := insertProcessMinHeap algorithm.comparator (createMinHeap junk) high
      accepted := [high]
      extracted := [] }
  have hpos : 0 < (createMinHeap junk).capacity := Nat.succ_pos 1023
  obtain ⟨hroot, hsize⟩ : h.heap.processes 0 = high ∧ h.heap.size = 1 :=
    insert_first algorithm high rfl hpos
  have hlist : h.heap.toList = [high] := by
    have hmem : h.heap.toList.Perm ([] ++ [high]) :=
      insert_perm algorithm.comparator high hpos
    exact List.perm_singleton.mp hmem
  have hcap : h.heap.capacity = 1024 := insert_capacity
  have hfirst : algorithm.HeapStep (.initial junk) (.insert high) h :=
    ⟨⟨hrange high hhigh, fun q hq => absurd hq List.not_mem_nil⟩, rfl⟩
  have hge : ∀ p ∈ ps.erase high, ¬ algorithm.comparator p (h.heap.processes 0) < 0 := by
    intro p hp
    have hmem := List.mem_of_mem_erase hp
    rw [hroot, comparator_lt (hrange p hmem) (hrange high hhigh)]
    exact not_lt.mpr (hleast p hmem)
  have hids' : ((h.heap.toList ++ ps.erase high).map PCB.idFromFile).Nodup := by
    rw [hlist]
    exact (hperm.map PCB.idFromFile).nodup_iff.mp hids
  obtain ⟨h', hrun, hall, hne, hkeep⟩ := insertAll_root (ps.erase high) (by omega) (by omega)
    hids' (fun p hp => hrange p (List.mem_of_mem_erase hp)) hge
  rw [hlist] at hall
  have hps : h'.heap.toList.Perm ps := hall.trans hperm.symm
  refine ⟨_, h', (Trace.refl.snoc hfirst).trans hrun, hps, ?_⟩
  intro hreturns
  have hout : (extractMin algorithm.comparator h'.heap).1 = some high := by
    rw [(extractMin_perm algorithm.comparator hne).1, hkeep, hroot]
  rcases hreturns high hout low (hps.mem_iff.mpr hlow) with hlt | ⟨-, hle⟩ <;> omega

/-- `extract_min` follows the documented order in every run without ties for the least key, and
only without them does it do so whatever the order of arrivals. -/
theorem returnsLeastPair_of_noTie (algorithm : SchedulingAlgorithm) (junk : PCB) :
    (∀ calls, Throughout algorithm.HeapStep (.initial junk) calls algorithm.NoTie →
      Throughout algorithm.HeapStep (.initial junk) calls algorithm.ReturnsLeastPair) ∧
    ∀ ps : List PCB, (ps.map PCB.idFromFile).Nodup → (∀ p ∈ ps, algorithm.InRange p) →
      ps.length ≤ 1024 →
      ((∀ calls h, Trace algorithm.HeapStep (.initial junk) calls h → h.heap.toList.Perm ps →
        algorithm.ReturnsLeastPair h .extract) ↔ algorithm.LeastOnce ps) := by
  constructor
  · intro calls hfree pre call h h' hp ht hstep
    cases call with
    | insert => trivial
    | extract =>
      have hinv := historyInv_trace ht
      exact returnsLeastPair_of_leastOnce hinv.toInOrder (hfree pre _ h h' hp ht hstep)
  · intro ps hids hrange hroom
    constructor
    · intro hall
      by_contra htie
      obtain ⟨calls, h, ht, hperm, hwrong⟩ := exists_wrong_of_tie junk hids hrange hroom htie
      exact hwrong (hall calls h ht hperm)
    · intro honce calls h ht hperm
      refine returnsLeastPair_of_leastOnce (historyInv_trace ht).toInOrder ?_
      intro p hp q hq hleast
      exact honce p (hperm.mem_iff.mp hp) q (hperm.mem_iff.mp hq)
        fun r hr => hleast r (hperm.mem_iff.mpr hr)

/-- Three processes of one priority go in in the order of their ids, and one comes out. -/
def equalPriorities : List (HeapCall PCB) :=
  [.insert (Process.newPcb ⟨1, 0, 5, 0, 64⟩ 101 11 21),
    .insert (Process.newPcb ⟨2, 0, 5, 0, 64⟩ 102 12 22),
    .insert (Process.newPcb ⟨3, 0, 5, 0, 64⟩ 103 13 23), .extract]

/-- The next one is process 3, and process 2 is still in the heap. -/
theorem equalPriorities_notById :
    ¬ Throughout SchedulingAlgorithm.HPF.HeapStep (.initial emptyFront)
      (equalPriorities ++ [.extract]) SchedulingAlgorithm.HPF.ReturnsLeastPair := by
  intro hall
  obtain ⟨h, hrun, htest⟩ := exists_trace_of_execute
    (R := fun h call h' => HeapHistory.next SchedulingAlgorithm.HPF.comparator h call = some h')
    (fun _ _ _ hstep => hstep)
    (show (execute SchedulingAlgorithm.HPF.NewProcess
      (HeapHistory.next SchedulingAlgorithm.HPF.comparator) (.initial emptyFront)
      equalPriorities).any (fun h => h.heap.toList.any fun q =>
        (extractMin SchedulingAlgorithm.HPF.comparator h.heap).1.any fun p =>
          p.priority = q.priority ∧ q.idFromFile < p.idFromFile) = true by decide +kernel)
  obtain ⟨q, hq, hout⟩ := List.any_eq_true.mp htest
  obtain ⟨p, hp, hlt⟩ := (Option.any_eq_true _ _).mp hout
  obtain ⟨hkey, hid⟩ := of_decide_eq_true hlt
  have hbefore := hall equalPriorities .extract h _ (List.prefix_refl _) hrun ⟨trivial, rfl⟩ p hp q hq
  rcases hbefore with hless | ⟨-, hle⟩
  · exact absurd hkey (ne_of_lt hless)
  · exact absurd hid (not_lt.mpr hle)

end KernelSim
