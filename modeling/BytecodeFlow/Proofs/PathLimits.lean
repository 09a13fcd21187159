import Mathlib
import BytecodeFlow.Proofs.PathSearch

/-!
# Limits cut the search for paths short, and do nothing else

`Graph.paths` makes the same tries under any limits, in the same order, and stops when a limit is
reached (`Limits.cut`).  This file compares two such runs.

**Order.**  `low ≤ high` says that each limit of `low` is at most that of `high`, where no limit is
above all others.  What stops the search under `high` then stops it under `low`.

**Two runs.**  Under the lower limits the search stops first, so it has found a part of what it finds
under the higher ones; and if it has not been stopped, there is nothing more to find
(`Limits.cut_mono`).  That limits cut a prefix of what is there is the case in which the higher
ones are none at all.

**The shortcut.**  At an entry that is an exit no step is taken, so that the limit on steps does not
count (`Limits.counted`).
-/

namespace BytecodeFlow

namespace Limits

variable {low high limits : Limits} {steps count k : Nat} {found : Array (List Nat)}

/-! ## Order -/

/-- Limits are raised by a greater number, or by taking a limit away. -/
instance : LE Limits where
  le low high := (∀ n ∈ high.maxPaths, ∃ m ∈ low.maxPaths, m ≤ n) ∧
    ∀ n ∈ high.maxSteps, ∃ m ∈ low.maxSteps, m ≤ n

/-- No limit allows most. -/
lemma le_none (limits : Limits) : limits ≤ Limits.none :=
  ⟨by simp [Limits.none], by simp [Limits.none]⟩

/-- The step limit is passed by the step behind it. -/
lemma stepsExceeded_iff : limits.stepsExceeded steps = true ↔ ∃ n ∈ limits.maxSteps, n < steps := by
  simp [stepsExceeded, Option.any_eq_true]

/-- The path limit is reached by the last path that it allows. -/
lemma pathsReached_iff : limits.pathsReached count = true ↔ ∃ n ∈ limits.maxPaths, n ≤ count := by
  simp [pathsReached, Option.any_eq_true]

/-- A smaller limit is passed no later. -/
lemma stepsExceeded_of_le (h : low ≤ high) (hhigh : high.stepsExceeded steps = true) :
    low.stepsExceeded steps = true := by
  obtain ⟨n, hn, hlt⟩ := stepsExceeded_iff.mp hhigh
  obtain ⟨m, hm, hmn⟩ := h.2 n hn
  exact stepsExceeded_iff.mpr ⟨m, hm, hmn.trans_lt hlt⟩

lemma pathsReached_of_le (h : low ≤ high) (hhigh : high.pathsReached count = true) :
    low.pathsReached count = true := by
  obtain ⟨n, hn, hle⟩ := pathsReached_iff.mp hhigh
  obtain ⟨m, hm, hmn⟩ := h.1 n hn
  exact pathsReached_iff.mpr ⟨m, hm, hmn.trans hle⟩

/-! ## Two runs -/

/-- What has been found stays where it is. -/
lemma prefix_paths_cut (limits : Limits) (steps : Nat) (found : Array (List Nat))
    (list : List (Option (List Nat))) :
    found.toList <+: (limits.cut steps found list).paths.toList := by
  fun_induction Limits.cut limits steps found list with
  | case1 => exact List.prefix_rfl
  | case2 => exact List.prefix_rfl
  | case3 _ _ _ _ ih => exact ih
  | case4 => exact List.prefix_rfl
  | case5 steps found rest _ path _ ih =>
      refine List.IsPrefix.trans ?_ ih
      simp

/-- **Under lower limits the search finds a part of what it finds under higher ones**, and all of it if
it is not cut short. -/
lemma cut_mono (h : low ≤ high) (list : List (Option (List Nat))) :
    ∀ (steps : Nat) (found : Array (List Nat)),
      (low.cut steps found list).paths.toList <+: (high.cut steps found list).paths.toList ∧
        ((low.cut steps found list).truncated = false →
          low.cut steps found list = high.cut steps found list) := by
  induction list with
  | nil => exact fun steps found => ⟨List.prefix_rfl, fun _ => rfl⟩
  | cons entry rest ih =>
      intro steps found
      -- where the lower limits stop the search, what was found before is what it has found
      have hstop : ∀ {result : PathSet}, result = ⟨found, true⟩ →
          result.paths.toList <+: (high.cut steps found (entry :: rest)).paths.toList ∧
            (result.truncated = false → result = high.cut steps found (entry :: rest)) := by
        rintro _ rfl
        exact ⟨prefix_paths_cut _ _ _ _, by simp⟩
      by_cases hsteps : low.stepsExceeded (steps + 1) = true
      · exact hstop (by simp [cut, hsteps])
      · have hsteps' : ¬high.stepsExceeded (steps + 1) = true := mt (stepsExceeded_of_le h) hsteps
        cases entry with
        | none => simpa [cut, hsteps, hsteps'] using ih (steps + 1) found
        | some path =>
            by_cases hpaths : low.pathsReached found.size = true
            · exact hstop (by simp [cut, hsteps, hpaths])
            · have hpaths' : ¬high.pathsReached found.size = true := mt (pathsReached_of_le h) hpaths
              simpa [cut, hsteps, hsteps', hpaths, hpaths'] using ih (steps + 1) (found.push path)

lemma size_cut_le (hk : k ∈ limits.maxPaths) (steps : Nat) {found : Array (List Nat)}
    (hfound : found.size ≤ k) (list : List (Option (List Nat))) :
    (limits.cut steps found list).paths.size ≤ k := by
  fun_induction Limits.cut limits steps found list with
  | case1 => exact hfound
  | case2 => exact hfound
  | case3 _ _ _ _ ih => exact ih hfound
  | case4 => exact hfound
  | case5 steps found rest _ path hpaths ih =>
      refine ih ?_
      have hopen : found.size < k := by simpa [pathsReached, Option.mem_def.mp hk] using hpaths
      simpa using hopen

/-- **A limit on the paths alone** keeps as many of the paths as it allows, and cuts the search short
exactly if there are more. -/
lemma cut_maxPaths (k : Nat) (list : List (Option (List Nat))) :
    ∀ (steps : Nat) (found : Array (List Nat)), found.size ≤ k →
      Limits.cut ⟨some k, .none⟩ steps found list
        = ⟨(found ++ list.filterMap fun entry => entry).take k,
            decide (k < found.size + (list.filterMap fun entry => entry).length)⟩ := by
  induction list with
  | nil =>
      intro steps found hfound
      have hall : found = found.take k := Array.toList_inj.mp (by simp [hfound])
      simpa [cut, Nat.not_lt.mpr hfound] using hall
  | cons entry rest ih =>
      intro steps found hfound
      cases entry with
      | none => simpa [cut, stepsExceeded] using ih (steps + 1) found hfound
      | some path =>
          rcases Nat.eq_or_lt_of_le hfound with rfl | hlt
          · have hall : found
                = (found.push path ++ rest.filterMap fun entry => entry).take found.size :=
              Array.toList_inj.mp (by simp)
            simpa [cut, stepsExceeded, pathsReached] using hall
          · have hopen : (⟨some k, .none⟩ : Limits).pathsReached found.size = false := by
              simpa [pathsReached] using hlt
            simp only [cut, stepsExceeded, hopen, ih _ (found.push path) (by simpa using hlt)]
            simp
            omega

/-! ## The shortcut -/

/-- The limits that count, depending on whether the search takes steps at all. -/
def counted (limits : Limits) (walks : Bool) : Limits :=
  { limits with maxSteps := if walks then limits.maxSteps else .none }

/-- Fewer limits allow more. -/
lemma counted_mono (h : low ≤ high) (walks : Bool) : low.counted walks ≤ high.counted walks := by
  cases walks with
  | true => exact h
  | false => exact ⟨h.1, by simp [counted]⟩

lemma counted_of_maxSteps_eq_none (maxPaths : Option Nat) (walks : Bool) :
    (⟨maxPaths, .none⟩ : Limits).counted walks = ⟨maxPaths, .none⟩ := by
  cases walks <;> rfl

end Limits

namespace Graph

variable {g : Graph} {loops : List Loop}

/-- **The tries of a graph do not depend on the limits.** -/
lemma Closed.exists_tries (hg : g.Closed) (hloops : ∀ l ∈ loops, ∀ exit ∈ l.exit, exit < g.size) :
    ∃ list walks, ∀ limits : Limits,
      g.paths loops limits = .ok ((limits.counted walks).cut 0 #[] list) := by
  rcases Nat.eq_zero_or_pos g.size with hsize | hsize
  · exact ⟨[], true, fun limits => paths_of_size_eq_zero hsize limits⟩
  · cases hexit : g.isExit g.entry with
    | false => exact ⟨_, true, fun limits => hg.paths_eq hloops hsize hexit limits⟩
    | true =>
        refine ⟨[some [g.entry]], false, fun limits => ?_⟩
        have hcut : (limits.counted false).cut 0 #[] [some [g.entry]]
            = if limits.pathsReached 0 then ⟨#[], true⟩ else ⟨#[[g.entry]], false⟩ := by
          simp [Limits.cut, Limits.counted, Limits.stepsExceeded, Limits.pathsReached]
        rw [paths, if_pos hexit, hcut]
        split_ifs <;> rfl

/-- **Limits cut the search for paths short, and do nothing else.**  Whatever the limits, a part of all
paths is found, from the first one on, with no more of them than are allowed, and all of them if the
search is not cut short.  If the paths alone are limited, as many as are allowed are found, and the
search is cut short exactly if there are more.  Raising the limits never finds fewer paths, and never
cuts short a search that was not. -/
theorem paths_within_limits (g : Graph) (loops : List Loop) (hg : g.Closed)
    (hloops : ∀ l ∈ loops, ∀ exit ∈ l.exit, exit < g.size) :
    ∃ all, g.paths loops .none = .ok ⟨all, false⟩ ∧
      (∀ limits, ∃ found, g.paths loops limits = .ok found ∧
        found.paths.toList <+: all.toList ∧ (∀ k ∈ limits.maxPaths, found.paths.size ≤ k) ∧
        (found.truncated = false → found.paths = all)) ∧
      (∀ k, g.paths loops ⟨some k, none⟩ = .ok ⟨all.take k, decide (k < all.size)⟩) ∧
      ∀ low high, low ≤ high → ∃ few many, g.paths loops low = .ok few ∧
        g.paths loops high = .ok many ∧ few.paths.toList <+: many.paths.toList ∧
        (few.truncated = false → many.truncated = false) := by
  obtain ⟨list, walks, hpaths⟩ := hg.exists_tries hloops
  have hnone : Limits.none.counted walks = .none := Limits.counted_of_maxSteps_eq_none .none walks
  have hmono := fun {low high : Limits} (h : low ≤ high) =>
    Limits.cut_mono (Limits.counted_mono h walks) list 0 #[]
  refine ⟨(list.filterMap fun entry => entry).toArray, ?_, fun limits => ?_, fun k => ?_,
    fun low high h => ?_⟩
  · rw [hpaths, hnone, cut_none]
    simp
  · obtain ⟨hpart, hall⟩ := hmono limits.le_none
    rw [hnone, cut_none] at hpart hall
    refine ⟨_, hpaths limits, by simpa using hpart, fun k hk => ?_, fun hwhole => ?_⟩
    · exact Limits.size_cut_le (show k ∈ (limits.counted walks).maxPaths from hk) 0 (by simp) list
    · rw [hall hwhole]
      simp
  · rw [hpaths, Limits.counted_of_maxSteps_eq_none, Limits.cut_maxPaths k list 0 #[] (by simp)]
    simp
  · obtain ⟨hpart, hsame⟩ := hmono h
    exact ⟨_, _, hpaths low, hpaths high, hpart, fun hwhole => hsame hwhole ▸ hwhole⟩

/-- The sample graph has three paths, the first two of which differ in the slot of the call only.  With
two of them allowed the third one is missing, and a limit on the steps takes more away. -/
theorem paths_within_limits_sample :
    sample.Closed ∧ sample.paths [] .none = .ok ⟨#[[0, 1, 3, 4, 5], [0, 1, 3, 4, 5], [0, 1, 5]], false⟩ ∧
      sample.paths [] ⟨some 2, none⟩ = .ok ⟨#[[0, 1, 3, 4, 5], [0, 1, 3, 4, 5]], true⟩ ∧
      ∃ few, sample.paths [] ⟨some 2, some 4⟩ = .ok few ∧ few.truncated = true ∧
        few.paths.toList <+: [[0, 1, 3, 4, 5], [0, 1, 3, 4, 5]] := by
  have hthree : sample.paths [] .none
      = .ok ⟨#[[0, 1, 3, 4, 5], [0, 1, 3, 4, 5], [0, 1, 5]], false⟩ := by cbv
  obtain ⟨all, hall, _, hcount, hraise⟩ := paths_within_limits sample [] (by decide) (by simp)
  obtain rfl := (PathSet.mk.inj (Except.ok.inj (hall.symm.trans hthree))).1
  have htwo : sample.paths [] ⟨some 2, none⟩ = .ok ⟨#[[0, 1, 3, 4, 5], [0, 1, 3, 4, 5]], true⟩ :=
    hcount 2
  obtain ⟨few, many, hfew, hmany, hpart, hwhole⟩ :=
    hraise ⟨some 2, some 4⟩ ⟨some 2, none⟩ ⟨by simp, by simp⟩
  obtain rfl := Except.ok.inj (hmany.symm.trans htwo)
  exact ⟨by decide, hthree, htwo, few, hfew, by simpa using hwhole, hpart⟩

end Graph

end BytecodeFlow
