import ClusterMaster.Proofs.Rounds
import ClusterMaster.Proofs.SmallCluster

/-!
# Sharding does not matter

A pass cuts the names of the groups that are due into pieces, and hands each piece to a shard. How
many shards there are depends on the settings, and in which order they finish on nobody. A shard
takes its picture after others have queued events, decides the targets of all its groups together,
and queues events into tables that all shards share. But the work it does for a member is what the
group of that member asks for (`mem_passWork_iff`), and no two groups share a member. So for every
reachable master and any two numbers of shards (`indifferent_of_reachable`):

    there are no more shards than allowed                                                (atMost)
    the shards list the groups that are due, and nothing else                               (due)
    each of these groups is in one shard                                                   (once)
    whatever the order of the shards, the pass leads to the same master                   (alike)
-/

namespace ClusterMaster

/-! ## Pieces -/

/-- Pieces that can hold everything are enough. -/
theorem length_chunks_le {α : Type} {size n : Nat} {xs : List α} (h : xs.length ≤ n * size) :
    (chunks size xs).length ≤ n := by
  induction n generalizing xs with
  | zero =>
    have hxs : xs = [] := List.length_eq_zero_iff.mp (by omega)
    unfold chunks
    rw [dif_pos (.inl hxs)]
    exact Nat.le_refl 0
  | succ n ih =>
    unfold chunks
    split
    · exact Nat.zero_le _
    · rw [List.length_cons]
      refine Nat.succ_le_succ (ih ?_)
      rw [List.length_drop]
      rw [Nat.succ_mul] at h
      omega

/-- So many pieces of the rounded size can hold everything. -/
theorem le_mul_div_of_pos (len : Nat) {n : Nat} (hn : 0 < n) : len ≤ n * ((len + n - 1) / n) := by
  have hlt := Nat.lt_mul_div_succ (len + n - 1) hn
  rw [Nat.mul_succ] at hlt
  omega

/-- What is listed once altogether is in one of the pieces. -/
theorem countP_mem_eq_one {α : Type} [DecidableEq α] {xss : List (List α)} {a : α}
    (hn : xss.flatten.Nodup) (ha : a ∈ xss.flatten) :
    xss.countP (fun xs => decide (a ∈ xs)) = 1 := by
  induction xss with
  | nil => cases ha
  | cons xs xss ih =>
    rw [List.flatten_cons] at hn ha
    obtain ⟨-, hrest, hdisjoint⟩ := List.nodup_append'.mp hn
    rw [List.countP_cons]
    by_cases hxs : a ∈ xs
    · have hnone : xss.countP (fun xs => decide (a ∈ xs)) = 0 := by
        refine List.countP_eq_zero.mpr fun ys hys hmem => ?_
        exact hdisjoint hxs (List.mem_flatten.mpr ⟨ys, hys, by simpa using hmem⟩)
      rw [hnone, if_pos (decide_eq_true hxs)]
    · rw [ih hrest ((List.mem_append.mp ha).resolve_left hxs), if_neg (by simpa using hxs)]

/-! ## Work in another order -/

namespace EventQueues

/-- Work with one entry for each consumer is told by its entries. -/
theorem queue_pushAll_congr {through : String → Bool} {q : EventQueues}
    {work work' : List (String × List Event)} (hn : (work.map Prod.fst).Nodup)
    (hn' : (work'.map Prod.fst).Nodup) (h : ∀ w, w ∈ work ↔ w ∈ work') (id : String) :
    (q.pushAll through work).queue id = (q.pushAll through work').queue id := by
  have hsame : (work.filter fun w => w.1 == id).flatMap Prod.snd =
      (work'.filter fun w => w.1 == id).flatMap Prod.snd := by
    by_cases hid : ∃ es, (id, es) ∈ work
    · obtain ⟨es, hes⟩ := hid
      rw [flatMap_filter_of_nodup hn hes, flatMap_filter_of_nodup hn' ((h _).mp hes)]
    · have hnone : ∀ work'' : List (String × List Event), (∀ w, w ∈ work'' ↔ w ∈ work) →
          work''.filter (fun w => w.1 == id) = [] := by
        refine fun work'' hw => List.filter_eq_nil_iff.mpr fun w hmem hfst => hid ⟨w.2, ?_⟩
        rw [← beq_iff_eq.mp hfst]
        exact (hw w).mp hmem
      rw [hnone work fun _ => Iff.rfl, hnone work' fun w => (h w).symm]
  rw [queue_pushAll, queue_pushAll, hsame]

theorem pushAll_congr {through : String → Bool} {q : EventQueues} (hq : q.Tidy)
    {work work' : List (String × List Event)} (hn : (work.map Prod.fst).Nodup)
    (hn' : (work'.map Prod.fst).Nodup) (h : ∀ w, w ∈ work ↔ w ∈ work') :
    q.pushAll through work = q.pushAll through work' := by
  have hqueues := queues_ext ((Requeued.pushAll through q work).tidy hq)
    ((Requeued.pushAll through q work').tidy hq) (queue_pushAll_congr hn hn' h)
  have hcounts := (Requeued.pushAll through q work).unfinished.trans
    (Requeued.pushAll through q work').unfinished.symm
  exact congrArg₂ EventQueues.mk hqueues hcounts

end EventQueues

namespace Master

variable {m : Master} {n k : UInt64}

/-! ## Another number of shards -/

/-- The same master, allowed another number of shards. -/
def withParallelism (m : Master) (n : UInt64) : Master :=
  { m with settings := { m.settings with parallelism := n } }

/-- The groups the next pass balances. -/
def dueGroups (m : Master) : List String := if m.firstPass then m.groups.names else m.groupsDue.1

/-- The next pass, when its shards run in some order. -/
def passIn (m : Master) (order : List (List String)) : Master :=
  order.foldl (fun m' names => m'.runShard m.balancer m.beginPass.1 names) m.beginPass.2

/-- A pass runs its shards as they are listed. -/
theorem passIn_shards (m : Master) : m.passIn m.beginPass.1.shards = m.after .pass := rfl

theorem foldl_dropBacklog_withParallelism (names : List String) :
    names.foldl dropBacklog (m.withParallelism n) = (names.foldl dropBacklog m).withParallelism n :=
  List.foldl_hom (withParallelism · n) fun _ _ => rfl

/-- Which groups are due does not depend on the shards. -/
theorem groupsDue_withParallelism :
    (m.withParallelism n).groupsDue = (m.groupsDue.1, m.groupsDue.2.withParallelism n) := by
  unfold groupsDue
  simp only []
  rw [show (m.withParallelism n).stalledGroups = m.stalledGroups from rfl,
    show (m.withParallelism n).isWaitedFor = m.isWaitedFor from rfl,
    foldl_dropBacklog_withParallelism]
  rfl

theorem length_shardsOf_le (hn : 1 ≤ n) (names : List String) :
    ((m.withParallelism n).shardsOf names).length ≤ n.toNat := by
  have hmax : max n.toNat 1 = n.toNat := Nat.max_eq_left (UInt64.le_iff_toNat_le.mp hn)
  unfold shardsOf
  simp only []
  rw [show (m.withParallelism n).settings.parallelism = n from rfl, hmax]
  exact length_chunks_le (le_mul_div_of_pos _ (UInt64.le_iff_toNat_le.mp hn))

section Begun

variable (hin : m.inFlight = 0)

include hin

/-- The groups that are due are cut into shards, and a pass begins alike but for the cut. -/
theorem beginPass_withParallelism : ∃ events : EventQueues,
    (m.events.Tidy → events.Tidy) ∧ ∀ n, (m.withParallelism n).beginPass =
      ({ pass := m.lastPass + 1
         first := m.firstPass
         shards := (m.withParallelism n).shardsOf m.dueGroups },
       { m.withParallelism n with
          events := events
          lastPass := m.lastPass + 1
          inFlight := ((m.withParallelism n).shardsOf m.dueGroups).length
          firstPass := false }) := by
  unfold dueGroups
  cases hf : m.firstPass with
  | true =>
    refine ⟨m.events, id, fun n => ?_⟩
    rw [beginPass_of_first (m := m.withParallelism n) hin hf]
    rfl
  | false =>
    obtain ⟨events, he, -⟩ := groupsDue_spec m.numbered
    obtain ⟨_, hdue, -⟩ := groupsDue_spec m
    refine ⟨events, fun ht => ?_, fun n => ?_⟩
    · have hevents : events = m.numbered.groupsDue.2.events := by rw [he]
      rw [hevents]
      exact (requeued_foldl_dropBacklog m.numbered _).tidy ht
    · rw [beginPass_of_later (m := m.withParallelism n) hin hf,
        show (m.withParallelism n).numbered = m.numbered.withParallelism n from rfl,
        groupsDue_withParallelism, he, hdue]
      rfl

theorem shards_withParallelism (n : UInt64) : (m.withParallelism n).beginPass.1.shards =
    (m.withParallelism n).shardsOf m.dueGroups := by
  obtain ⟨_, -, hbegun⟩ := beginPass_withParallelism hin
  rw [hbegun n]

theorem flatten_shards (n : UInt64) :
    (m.withParallelism n).beginPass.1.shards.flatten = m.dueGroups := by
  rw [shards_withParallelism hin, flatten_shardsOf]

theorem nodup_dueGroups : m.dueGroups.Nodup := by
  rw [← flatten_shards hin m.settings.parallelism]
  exact nodup_selected hin

/-- What a pass comes to when its shards run in some order. -/
theorem passIn_withParallelism : ∃ events : EventQueues, (m.events.Tidy → events.Tidy) ∧
    ∀ n order, order.Perm (m.withParallelism n).beginPass.1.shards →
      (m.withParallelism n).passIn order =
        { m.withParallelism n with
          events := events.pushAll m.letsThrough (m.passWork m.balancer
            { pass := m.lastPass + 1, first := m.firstPass, shards := order } order)
          lastPass := m.lastPass + 1
          inFlight := 0
          firstPass := false } := by
  obtain ⟨events, htidy, hbegun⟩ := beginPass_withParallelism hin
  refine ⟨events, htidy, fun n order ho => ?_⟩
  have hlength := ho.length_eq
  rw [hbegun n] at hlength
  unfold passIn
  rw [foldl_runShard, hbegun n, hlength]
  simp only [Nat.sub_self]
  rfl

end Begun

/-- In whatever order the shards run, and however many there are, a pass leads to the same. -/
theorem passIn_alike (h : m.Reachable) {order order' : List (List String)}
    (ho : order.Perm (m.withParallelism n).beginPass.1.shards)
    (ho' : order'.Perm (m.withParallelism k).beginPass.1.shards) :
    ((m.withParallelism n).passIn order).withParallelism k =
      (m.withParallelism k).passIn order' := by
  have hr := registry_of_reachable h
  have hlisted : order.flatten.Perm m.dueGroups := flatten_shards hr.settled n ▸ ho.flatten
  have hlisted' : order'.flatten.Perm m.dueGroups := flatten_shards hr.settled k ▸ ho'.flatten
  have hn := hlisted.nodup_iff.mpr (nodup_dueGroups hr.settled)
  have hn' := hlisted'.nodup_iff.mpr (nodup_dueGroups hr.settled)
  obtain ⟨events, htidy, hpass⟩ := passIn_withParallelism hr.settled
  have hevents : events.pushAll m.letsThrough (m.passWork m.balancer
        { pass := m.lastPass + 1, first := m.firstPass, shards := order } order) =
      events.pushAll m.letsThrough (m.passWork m.balancer
        { pass := m.lastPass + 1, first := m.firstPass, shards := order' } order') := by
    refine EventQueues.pushAll_congr (htidy h.counted.tidy)
      (nodup_map_fst_passWork hr.coherent _ _ hn) (nodup_map_fst_passWork hr.coherent _ _ hn')
      fun w => ?_
    rw [mem_passWork_iff hr.coherent rfl rfl hn, mem_passWork_iff hr.coherent rfl rfl hn']
    simp only [hlisted.mem_iff, hlisted'.mem_iff]
  rw [hpass n order ho, hpass k order' ho', hevents]
  rfl

/-- Nobody can tell from what a pass has done how it was cut into shards, and in which order they
ran. -/
structure Indifferent (m : Master) (n k : UInt64) : Prop where
  atMost : (m.withParallelism n).beginPass.1.shards.length ≤ n.toNat
  due : (m.withParallelism n).beginPass.1.shards.flatten = m.dueGroups
  once : ∀ g ∈ m.dueGroups,
    (m.withParallelism n).beginPass.1.shards.countP (fun names => decide (g ∈ names)) = 1
  alike : ∀ order order', order.Perm (m.withParallelism n).beginPass.1.shards →
    order'.Perm (m.withParallelism k).beginPass.1.shards →
    ((m.withParallelism n).passIn order).withParallelism k = (m.withParallelism k).passIn order'

/-- For a reachable master, sharding makes no difference. -/
theorem indifferent_of_reachable (h : m.Reachable) (hn : 1 ≤ n) : m.Indifferent n k := by
  have hin := (registry_of_reachable h).settled
  refine ⟨?_, flatten_shards hin n, fun g hg => ?_, fun order order' => passIn_alike h⟩
  · rw [shards_withParallelism hin]
    exact length_shardsOf_le hn _
  · rw [← flatten_shards hin n] at hg
    refine countP_mem_eq_one ?_ hg
    rw [flatten_shards hin n]
    exact nodup_dueGroups hin

end Master

/-! ## Three groups

Two shards or three, the first pass queues an event for each of three groups.
-/

namespace ThreeGroups

open Master SmallCluster

def history : List Operation :=
  [serving,
   .consumerRegister (joining "a" "g"),
   .consumerRegister (joining "b" "i"),
   .consumerRegister (joining "c" "k")]

/-- The master before its first pass. -/
def gathered : Master := (fresh 1).run history

theorem indifferent_history : gathered.Reachable ∧ (1 : UInt64) ≤ 2 ∧
    (gathered.withParallelism 2).beginPass.1.shards = [["g", "i"], ["k"]] ∧
    (gathered.withParallelism 3).beginPass.1.shards = [["g"], ["i"], ["k"]] ∧
    (((gathered.withParallelism 2).passIn [["k"], ["g", "i"]]).events.queue "b").map Event.pass =
      [1] ∧
    gathered.Indifferent 2 3 :=
  have hreachable : gathered.Reachable := reachable_run rfl history
  ⟨hreachable, by decide, by cbv, by cbv, by cbv, indifferent_of_reachable hreachable (by decide)⟩

end ThreeGroups

end ClusterMaster
