import VantaCore.Extractors.Cisco.Common.CliHistory
import VantaCore.Lib.CappedRuns

/-! # The clusters of the command history

The loop over the sorted matches cuts them into the runs of at most 256 matches in which two
neighbours are at most 512 bytes apart (`clusters_eq_runs`), so the command lists of `cli_history` are
these runs (`run_partition`). -/

namespace VantaCore.Extractors.Cisco.Common.CliClusters

open VantaCore.Core.DumpHandle VantaCore.Lib.PyText VantaCore.Lib.CappedRuns
open VantaCore.Extractors.Cisco.Common.CliHistory

/-- Two matches are at most 512 bytes apart. -/
def Near (a b : ℕ × PyStr) : Prop := b.1 ≤ a.1 + 512

instance : DecidableRel Near := fun _ _ => inferInstanceAs (Decidable (_ ≤ _))

/-- The matches in the order of their offsets; of one offset, in the order they were found. -/
structure IsSorted (raw sorted : List (ℕ × PyStr)) : Prop where
  perm : sorted.Perm raw
  ordered : sorted.Pairwise fun a b => a.1 ≤ b.1
  stable : ∀ o, sorted.filter (·.1 = o) = raw.filter (·.1 = o)

/-- **The right partition of the matches**: the commands of the clusters are those of the sorted
matches, cut into their runs. -/
def IsPartition (raw : List (ℕ × PyStr)) (commands : List (List PyStr)) : Prop :=
  ∃ sorted groups, IsSorted raw sorted ∧ IsRuns Near 256 sorted groups ∧
    groups.map (·.map Prod.snd) = commands

/-! ### The order -/

theorem isSorted_sortMatches (raw : List (ℕ × PyStr)) : IsSorted raw (sortMatches raw) := by
  have htrans : ∀ a b c : ℕ × PyStr, decide (a.1 ≤ b.1) = true → decide (b.1 ≤ c.1) = true →
      decide (a.1 ≤ c.1) = true := by
    simp only [decide_eq_true_eq]
    omega
  have htotal : ∀ a b : ℕ × PyStr, (decide (a.1 ≤ b.1) || decide (b.1 ≤ a.1)) = true := by
    simp only [Bool.or_eq_true, decide_eq_true_eq]
    omega
  have hperm : (sortMatches raw).Perm raw := List.mergeSort_perm raw _
  refine ⟨hperm, ?_, fun o => ?_⟩
  · exact (List.pairwise_mergeSort htrans htotal raw).imp fun h => of_decide_eq_true h
  · -- the matches of one offset are in order as they are, so the sort keeps them so
    have hone : (raw.filter (·.1 = o)).Pairwise fun a b => decide (a.1 ≤ b.1) = true := by
      refine List.pairwise_of_forall_mem_list fun a ha b hb => ?_
      have ha := of_decide_eq_true (List.mem_filter.mp ha).2
      have hb := of_decide_eq_true (List.mem_filter.mp hb).2
      exact decide_eq_true (by omega)
    have hsub : (raw.filter (·.1 = o)).Sublist (sortMatches raw) :=
      List.sublist_mergeSort htrans htotal hone List.filter_sublist
    have hfilter := hsub.filter (·.1 = o)
    rw [List.filter_filter] at hfilter
    simp only [Bool.and_self] at hfilter
    exact (hfilter.eq_of_length (hperm.filter _).length_eq.symm).symm

/-! ### The loop -/

theorem add_of_near {s : ClusterState} {m : ℕ × PyStr}
    (h : m.1 ≤ s.prevOffset + 512 ∧ s.currentCluster.length < 256) :
    s.add m = { s with currentCluster := s.currentCluster ++ [m.2], prevOffset := m.1 } := by
  unfold ClusterState.add
  exact if_pos ⟨by omega, h.2⟩

theorem add_of_not_near {s : ClusterState} {m : ℕ × PyStr}
    (h : ¬ (m.1 ≤ s.prevOffset + 512 ∧ s.currentCluster.length < 256)) :
    s.add m = { clusters := s.close, currentCluster := [m.2], prevOffset := m.1 } := by
  unfold ClusterState.add
  exact if_neg fun hnear => h ⟨by omega, hnear.2⟩

theorem close_append (done : List (List PyStr)) (init : List PyStr) (cmd : PyStr) (o : ℕ) :
    (ClusterState.mk done (init ++ [cmd]) o).close = done ++ [init ++ [cmd]] := by
  unfold ClusterState.close
  exact if_neg (by simp)

/-- **The loop finds the runs**: `init` and `last` are the matches of the current cluster. -/
theorem close_foldl_add : ∀ (l init : List (ℕ × PyStr)) (last : ℕ × PyStr)
    (done : List (List PyStr)),
    (l.foldl ClusterState.add ⟨done, init.map Prod.snd ++ [last.2], last.1⟩).close =
      done ++ (runsFrom Near 256 init last l).map (·.map Prod.snd)
  | [], init, last, done => by
    rw [List.foldl_nil, close_append, runsFrom, List.map_singleton, List.map_append,
      List.map_singleton]
  | m :: l, init, last, done => by
    rw [List.foldl_cons]
    have hlen : (init.map Prod.snd ++ [last.2]).length = init.length + 1 := by simp
    by_cases h : Near last m ∧ init.length + 1 < 256
    · rw [add_of_near (by rw [hlen]; exact h), runsFrom_cons_of_pos h,
        ← close_foldl_add l (init ++ [last]) m done, List.map_append, List.map_singleton]
    · rw [add_of_not_near (by rw [hlen]; exact h), runsFrom_cons_of_neg h, close_append,
        List.map_cons, List.map_append, List.map_singleton]
      have hrest := close_foldl_add l [] m (done ++ [init.map Prod.snd ++ [last.2]])
      rw [List.map_nil, List.nil_append] at hrest
      rw [hrest, List.append_assoc, List.singleton_append]

/-- **The clusters are the runs of the sorted matches.** -/
theorem clusters_eq_runs (sorted : List (ℕ × PyStr)) :
    clusters sorted = (runs Near 256 sorted).map (·.map Prod.snd) := by
  cases sorted with
  | nil => rfl
  | cons m rest => exact close_foldl_add rest [] m []

theorem isPartition_clusters (raw : List (ℕ × PyStr)) :
    IsPartition raw (clusters (sortMatches raw)) :=
  ⟨sortMatches raw, runs Near 256 (sortMatches raw), isSorted_sortMatches raw,
    isRuns_runs (by decide) _, (clusters_eq_runs _).symm⟩

/-- **The command history is the right partition** of the matches of the scan: none is lost,
duplicated or moved, each cluster has 1 to 256 commands, and it ends where the next match is more
than 512 bytes away or where it is full. -/
theorem run_partition (n : ℕ) (dump : Dump) :
    IsPartition (rawMatches n dump) ((run n dump).cliHistory.map (·.commands)) ∧
      ((run n dump).cliHistory.map (·.commands)).flatten =
        (sortMatches (rawMatches n dump)).map Prod.snd := by
  have hcommands : (run n dump).cliHistory.map (·.commands) =
      clusters (sortMatches (rawMatches n dump)) := by
    unfold run
    rw [List.map_map]
    exact List.map_id _
  rw [hcommands]
  exact ⟨isPartition_clusters _, flatten_clusters _⟩

end VantaCore.Extractors.Cisco.Common.CliClusters
