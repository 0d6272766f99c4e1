import PeachOS.Fat.Chain
import PeachOS.Lib.Lookup

/-!
# Markers in the file allocation table

`fat16_get_cluster_for_offset` follows a chain as far as the cluster of an
offset.  Taken with a `fat16_get_fat_entry` that returns the entries themselves,
it compares them with 0, `0xFFF8` and `0xFFFF`, and with three numbers of
clusters; every other entry is taken for the next cluster.
-/

namespace PeachOS

open Lib

/-- The loop of `fat16_get_cluster_for_offset` as a program that asks for the
entries of clusters. -/
def clusterWalk : Nat → Int → Lookup Int Int Int
  | 0, clusterToUse => .done clusterToUse
  | n + 1, clusterToUse =>
      .ask clusterToUse fun entry =>
        if entry = 0xFFF8 ∨ entry = 0xFFFF then
          .done (-eio)
        else if entry = fatBadSector then
          .done (-eio)
        else if entry = 0xFF0 ∨ entry = 0xFF6 then
          .done (-eio)
        else if entry = 0x00 then
          .done (-eio)
        else
          clusterWalk n entry

def clustersAhead (fatPrivate : FatPrivate) (offset : Int) : Nat :=
  (offset.tdiv (sizeOfClusterBytes fatPrivate)).toNat

/-- `fat16_get_cluster_for_offset` over any `fat16_get_fat_entry`. -/
def fat16GetClusterForOffsetBy (getFatEntry : Int → Except Halt Int) (fatPrivate : FatPrivate)
    (startingCluster offset : Int) : Except Halt Int :=
  if sizeOfClusterBytes fatPrivate = 0 then
    .error .divide
  else
    (clusterWalk (clustersAhead fatPrivate offset) startingCluster).run getFatEntry

theorem fat16GetClusterForOffsetLoop_eq_run
    (disk : Disk) (fatPrivate : FatPrivate) (n : Nat) (cluster : Int) :
    fat16GetClusterForOffsetLoop disk fatPrivate n cluster =
      (clusterWalk n cluster).run (fat16GetFatEntry disk fatPrivate) := by
  induction n generalizing cluster with
  | zero => rfl
  | succ n ih =>
      rw [fat16GetClusterForOffsetLoop, clusterWalk, Lookup.run]
      cases fat16GetFatEntry disk fatPrivate cluster with
      | error halt => rfl
      | ok entry =>
          rw [ok_bind]
          dsimp only
          split_ifs <;> first | rfl | exact ih entry

/-- With the `fat16_get_fat_entry` of the source it is the function of the source. -/
theorem fat16GetClusterForOffset_eq_by
    (disk : Disk) (fatPrivate : FatPrivate) (startingCluster offset : Int) :
    fat16GetClusterForOffset disk fatPrivate startingCluster offset =
      fat16GetClusterForOffsetBy (fat16GetFatEntry disk fatPrivate) fatPrivate startingCluster
        offset := by
  rw [fat16GetClusterForOffset, fat16GetClusterForOffsetBy]
  split_ifs
  · rfl
  · exact fat16GetClusterForOffsetLoop_eq_run disk fatPrivate _ startingCluster

section Walk

variable (fatEntry : Int → Half)

/-- What the walk is told, when it is told the entries themselves. -/
def storedEntry (cluster : Int) : Int := (fatEntry cluster).toNat

/-- The clusters whose entries are read on the way to the cluster of an offset. -/
def clustersAsked (fatPrivate : FatPrivate) (startingCluster offset : Int) : List Int :=
  (clusterWalk (clustersAhead fatPrivate offset) startingCluster).asked (storedEntry fatEntry)

/-- A walk goes as it should: an entry that is no data cluster is the last one it
reads and makes it fail, and it does not fail on data clusters. -/
def StopsAtMarkers (fatPrivate : FatPrivate) (startingCluster offset : Int) : Prop :=
  ∃ res, fat16GetClusterForOffsetBy (fun cluster => .ok (storedEntry fatEntry cluster))
      fatPrivate startingCluster offset = .ok res ∧
    (∀ i cluster, (clustersAsked fatEntry fatPrivate startingCluster offset)[i]? = some cluster →
      ¬ IsDataCluster (fatEntry cluster).toNat →
      res < 0 ∧ (clustersAsked fatEntry fatPrivate startingCluster offset).length = i + 1) ∧
    ((∀ cluster ∈ clustersAsked fatEntry fatPrivate startingCluster offset,
      IsDataCluster (fatEntry cluster).toNat) → 0 ≤ res)

end Walk

/-- The entries that end the walk and are no data clusters. -/
def EndsChain (entry : Half) : Prop :=
  entry = 0x0000 ∨ entry = 0xFFF8 ∨ entry = 0xFFFF

/-- The data clusters that the walk follows. -/
def FollowedCluster (entry : Half) : Prop :=
  IsDataCluster entry.toNat ∧ entry ≠ 0x0FF0 ∧ entry ≠ 0x0FF6 ∧ entry ≠ 0x0FF7

/-- Of the entries on the way over `n` clusters the first that is no followed
cluster ends the chain, if there is one. -/
def WellMarked (fatEntry : Int → Half) : Nat → Int → Prop
  | 0, _ => True
  | n + 1, cluster =>
      EndsChain (fatEntry cluster) ∨
        FollowedCluster (fatEntry cluster) ∧
          WellMarked fatEntry n (fatEntry cluster).toNat

/-- A data cluster that the walk does not follow. -/
def RefusedCluster (entry : Half) : Prop :=
  entry = 0x0FF0 ∨ entry = 0x0FF6 ∨ entry = 0x0FF7

instance (entry : Half) : Decidable (EndsChain entry) :=
  inferInstanceAs (Decidable (_ ∨ _))

instance (entry : Half) : Decidable (FollowedCluster entry) :=
  inferInstanceAs (Decidable (_ ∧ _))

theorem EndsChain.not_data
    {entry : Half} (h : EndsChain entry) :
    ¬ IsDataCluster entry.toNat := by
  rcases h with rfl | rfl | rfl <;> decide

theorem RefusedCluster.data
    {entry : Half} (h : RefusedCluster entry) :
    IsDataCluster entry.toNat := by
  rcases h with rfl | rfl | rfl <;> decide

theorem RefusedCluster.not_followed
    {entry : Half} (h : RefusedCluster entry) :
    ¬ FollowedCluster entry := by
  rcases h with rfl | rfl | rfl <;> decide

instance (entry : Half) : Decidable (RefusedCluster entry) :=
  inferInstanceAs (Decidable (_ ∨ _))

/-- The walk stops at the six entries that it compares with. -/
theorem clusterWalk_succ
    (n : Nat) (cluster : Int) :
    clusterWalk (n + 1) cluster =
      .ask cluster fun entry =>
        if entry ∈ ([0xFFF8, 0xFFFF, 0xFF7, 0xFF0, 0xFF6, 0] : List Int) then
          .done (-eio)
        else
          clusterWalk n entry := by
  rw [clusterWalk]
  refine congrArg (Lookup.ask cluster) (funext fun entry => ?_)
  unfold fatBadSector
  simp only [List.mem_cons, List.not_mem_nil, or_false]
  split_ifs <;> first | rfl | (exfalso; omega)

theorem stops_iff
    (entry : Half) :
    (entry.toNat : Int) ∈ ([0xFFF8, 0xFFFF, 0xFF7, 0xFF0, 0xFF6, 0] : List Int) ↔
      EndsChain entry ∨ RefusedCluster entry := by
  simp only [List.mem_cons, List.not_mem_nil, or_false, EndsChain, RefusedCluster]
  constructor
  · intro h
    have heq (k : Half) (hk : (entry.toNat : Int) = k.toNat) : entry = k :=
      BitVec.eq_of_toNat_eq (Int.natCast_inj.mp hk)
    rcases h with h | h | h | h | h | h
    · exact Or.inl (Or.inr (Or.inl (heq _ h)))
    · exact Or.inl (Or.inr (Or.inr (heq _ h)))
    · exact Or.inr (Or.inr (Or.inr (heq _ h)))
    · exact Or.inr (Or.inl (heq _ h))
    · exact Or.inr (Or.inr (Or.inl (heq _ h)))
    · exact Or.inl (Or.inl (heq _ h))
  · rintro ((rfl | rfl | rfl) | (rfl | rfl | rfl)) <;> decide

section Step

variable {fatEntry : Int → Half} (n : Nat) {cluster : Int}

theorem clusterWalk_stops
    (h : EndsChain (fatEntry cluster) ∨ RefusedCluster (fatEntry cluster)) :
    (clusterWalk (n + 1) cluster).eval (storedEntry fatEntry) = -eio ∧
      (clusterWalk (n + 1) cluster).asked (storedEntry fatEntry) = [cluster] := by
  rw [clusterWalk_succ, Lookup.eval, Lookup.asked, storedEntry, if_pos ((stops_iff _).mpr h)]
  exact ⟨rfl, rfl⟩

theorem clusterWalk_follows
    (h : ¬ (EndsChain (fatEntry cluster) ∨ RefusedCluster (fatEntry cluster))) :
    (clusterWalk (n + 1) cluster).eval (storedEntry fatEntry) =
        (clusterWalk n (fatEntry cluster).toNat).eval (storedEntry fatEntry) ∧
      (clusterWalk (n + 1) cluster).asked (storedEntry fatEntry) =
        cluster :: (clusterWalk n (fatEntry cluster).toNat).asked (storedEntry fatEntry) := by
  rw [clusterWalk_succ, Lookup.eval, Lookup.asked, storedEntry,
    if_neg (fun hmem => h ((stops_iff _).mp hmem))]
  exact ⟨rfl, rfl⟩

end Step

/-- What is asked of a walk from a cluster over `n` more. -/
def WalkStops (fatEntry : Int → Half) (n : Nat) (cluster : Int) : Prop :=
  (∀ i c, ((clusterWalk n cluster).asked (storedEntry fatEntry))[i]? = some c →
    ¬ IsDataCluster (fatEntry c).toNat →
    (clusterWalk n cluster).eval (storedEntry fatEntry) < 0 ∧
      ((clusterWalk n cluster).asked (storedEntry fatEntry)).length = i + 1) ∧
  ((∀ c ∈ (clusterWalk n cluster).asked (storedEntry fatEntry),
    IsDataCluster (fatEntry c).toNat) →
    0 ≤ (clusterWalk n cluster).eval (storedEntry fatEntry))

/-- A walk that stops at once is right to when the entry is no data cluster. -/
theorem walkStops_of_stops
    {fatEntry : Int → Half} {n : Nat} {cluster : Int}
    (h : EndsChain (fatEntry cluster) ∨ RefusedCluster (fatEntry cluster)) :
    WalkStops fatEntry (n + 1) cluster ↔ ¬ IsDataCluster (fatEntry cluster).toNat := by
  obtain ⟨heval, hasked⟩ := clusterWalk_stops n h
  rw [WalkStops, heval, hasked]
  constructor
  · intro hstops hdata
    have hneg := hstops.2 (by simpa using hdata)
    exact absurd hneg (by decide)
  · intro hnot
    refine ⟨?_, fun hall => absurd (hall cluster List.mem_cons_self) hnot⟩
    intro i c hi _
    obtain ⟨rfl, -⟩ : i = 0 ∧ cluster = c := by simpa [List.getElem?_singleton] using hi
    exact ⟨by decide, rfl⟩

/-- A walk that goes on goes on to a cluster. -/
theorem walkStops_of_follows
    {fatEntry : Int → Half} {n : Nat} {cluster : Int}
    (h : ¬ (EndsChain (fatEntry cluster) ∨ RefusedCluster (fatEntry cluster))) :
    WalkStops fatEntry (n + 1) cluster ↔
      IsDataCluster (fatEntry cluster).toNat ∧
        WalkStops fatEntry n (fatEntry cluster).toNat := by
  obtain ⟨heval, hasked⟩ := clusterWalk_follows n h
  rw [WalkStops, heval, hasked]
  constructor
  · rintro ⟨hstops, hdata⟩
    have hfirst : IsDataCluster (fatEntry cluster).toNat := by
      by_contra hnot
      obtain ⟨hneg, hlast⟩ := hstops 0 cluster rfl hnot
      cases n with
      | zero =>
          simp only [clusterWalk, Lookup.eval] at hneg
          omega
      | succ n => simp [clusterWalk_succ, Lookup.asked] at hlast
    refine ⟨hfirst, ?_, ?_⟩
    · intro i c hi hnot
      obtain ⟨hneg, hlast⟩ := hstops (i + 1) c (by simpa using hi) hnot
      exact ⟨hneg, by simpa using hlast⟩
    · intro hall
      refine hdata ?_
      intro c hc
      rcases List.mem_cons.mp hc with rfl | hc
      · exact hfirst
      · exact hall c hc
  · rintro ⟨hfirst, hstops, hdata⟩
    refine ⟨?_, fun hall => hdata fun c hc => hall c (List.mem_cons_of_mem _ hc)⟩
    intro i c hi hnot
    cases i with
    | zero =>
        obtain rfl : cluster = c := by simpa using hi
        exact absurd hfirst hnot
    | succ i =>
        obtain ⟨hneg, hlast⟩ := hstops i c (by simpa using hi) hnot
        exact ⟨hneg, by simpa using hlast⟩

theorem walkStops_iff
    (fatEntry : Int → Half) (n : Nat) (cluster : Int) :
    WalkStops fatEntry n cluster ↔
      WellMarked fatEntry n cluster ∧ (n = 0 → 0 ≤ cluster) := by
  induction n generalizing cluster with
  | zero => simp [WalkStops, WellMarked, clusterWalk, Lookup.eval, Lookup.asked]
  | succ n ih =>
      have hpos : (n + 1 = 0 → 0 ≤ cluster) := fun h => absurd h (Nat.succ_ne_zero n)
      have hnext : (n = 0 → (0 : Int) ≤ ((fatEntry cluster).toNat : Int)) := fun _ => by omega
      rw [WellMarked, and_iff_left hpos]
      by_cases hends : EndsChain (fatEntry cluster)
      · rw [walkStops_of_stops (Or.inl hends)]
        exact iff_of_true hends.not_data (Or.inl hends)
      · by_cases hrefused : RefusedCluster (fatEntry cluster)
        · rw [walkStops_of_stops (Or.inr hrefused), or_iff_right hends]
          exact iff_of_false (not_not.mpr hrefused.data)
            fun h => hrefused.not_followed h.1
        · rw [walkStops_of_follows (not_or.mpr ⟨hends, hrefused⟩), ih, and_iff_left hnext,
            or_iff_right hends, FollowedCluster]
          have hnot := hrefused
          simp only [RefusedCluster, not_or] at hnot
          constructor
          · rintro ⟨hdata, hmarked⟩
            exact ⟨⟨hdata, hnot.1, hnot.2.1, hnot.2.2⟩, hmarked⟩
          · rintro ⟨⟨hdata, -⟩, hmarked⟩
            exact ⟨hdata, hmarked⟩

/-- A walk stops at the markers, and at nothing else, exactly when clusters are
not empty, the chain is well marked up to the cluster of the offset, and no
negative cluster is asked for as the first of a file. -/
theorem fat16GetClusterForOffset_stopsAtMarkers_iff
    (fatEntry : Int → Half) (fatPrivate : FatPrivate) (startingCluster offset : Int) :
    StopsAtMarkers fatEntry fatPrivate startingCluster offset ↔
      fatPrivate.header.sectorsPerCluster ≠ 0 ∧
        WellMarked fatEntry (clustersAhead fatPrivate offset) startingCluster ∧
        (clustersAhead fatPrivate offset = 0 → 0 ≤ startingCluster) := by
  rw [← walkStops_iff]
  by_cases hspc : fatPrivate.header.sectorsPerCluster = 0
  · have hsize : sizeOfClusterBytes fatPrivate = 0 := by simp [sizeOfClusterBytes, hspc]
    refine iff_of_false ?_ (fun h => h.1 hspc)
    rintro ⟨res, hres, -⟩
    rw [fat16GetClusterForOffsetBy, if_pos hsize] at hres
    cases hres
  · have hsize := sizeOfClusterBytes_pos hspc
    rw [and_iff_right hspc, StopsAtMarkers, fat16GetClusterForOffsetBy, if_neg (by omega),
      Lookup.run_ok]
    constructor
    · rintro ⟨res, hres, hstops⟩
      obtain rfl := Except.ok.inj hres
      exact hstops
    · intro hstops
      exact ⟨_, rfl, hstops⟩

/-- Whatever the table holds, every walk from a cluster stops at the markers. -/
def AlwaysStopsAtMarkers : Prop :=
  ∀ (fatEntry : Int → Half) (fatPrivate : FatPrivate) (startingCluster offset : Int),
    fatPrivate.header.sectorsPerCluster ≠ 0 → 0 ≤ startingCluster → 0 ≤ offset →
    StopsAtMarkers fatEntry fatPrivate startingCluster offset

/-- The mark of a bad cluster is returned as the cluster to read. -/
theorem alwaysStopsAtMarkers_false : ¬ AlwaysStopsAtMarkers := by
  intro h
  obtain ⟨res, hres, hstops, -⟩ := h (fun _ => 0xFFF7) linkedVolume.fatPrivate 2 512
    (by decide) (by decide) (by decide)
  have hbad : fat16GetClusterForOffsetBy (fun cluster => .ok (storedEntry (fun _ => 0xFFF7) cluster))
      linkedVolume.fatPrivate 2 512 = .ok 0xFFF7 := by
    decide
  obtain rfl := Except.ok.inj (hres.symm.trans hbad)
  have hneg := (hstops 0 2 (by decide) (by decide)).1
  exact absurd hneg (by decide)

end PeachOS
