import Mathlib.Tactic.Linarith
import Stave.Proofs.Output.Limiting
import Stave.Proofs.Sound.Rationals

/-!
# Below the ceiling

Read over the rational numbers, a limiter never has to cut a sample off.  The factor of a frame falls at
once to what the frame allows, and where it rises it glides towards that from below: it is never more
than the frame allows, however the frames before have moved it.  So a whole frame is made quieter by one
factor, and a stream that keeps below the ceiling comes out as it went in.
-/

namespace Stave.Limiter

/-! ## Buffers and their frames -/

section Buffers

variable {β : Type} [Scalar β]

/-- Limits buffers one after the other, each with its number of channels. -/
def processAll (l : Limiter β) (buffers : List (Nat × List β)) : List (List β) × Limiter β :=
  Mix.thread (fun l (buffer : Nat × List β) => l.process buffer.1 buffer.2) buffers l

/-- The frames of some buffers. -/
def framesOf (buffers : List (Nat × List β)) : List (List β) :=
  buffers.flatMap fun buffer => Mix.frames (max buffer.1 1) buffer.2

/-- The factors of frames that come one after the other. -/
def factors (l : Limiter β) : (frames : List (List β)) → List β
  | [] => []
  | samples :: rest => l.nextGain samples :: factors { l with gain := l.nextGain samples } rest

theorem length_factors (l : Limiter β) (frames : List (List β)) :
    (l.factors frames).length = frames.length := by
  induction frames generalizing l with
  | nil => rfl
  | cons samples rest ih => rw [factors, List.length_cons, List.length_cons, ih]

/-- The limiter goes over the frames of all buffers as if they were those of one stream. -/
theorem processAll_eq (l : Limiter β) (buffers : List (Nat × List β)) :
    (l.processAll buffers).1.flatten = (Mix.thread frame (framesOf buffers) l).1.flatten
      ∧ (l.processAll buffers).2 = (Mix.thread frame (framesOf buffers) l).2 := by
  induction buffers generalizing l with
  | nil => exact ⟨rfl, rfl⟩
  | cons buffer rest ih =>
    obtain ⟨hmade, hleft⟩ := ih (l.process buffer.1 buffer.2).2
    rw [processAll] at hmade hleft
    rw [processAll, Mix.thread_cons, framesOf, List.flatMap_cons, ← framesOf, Mix.thread_append]
    dsimp only
    rw [List.flatten_cons, List.flatten_append, hmade, hleft]
    exact ⟨rfl, rfl⟩

theorem map_length_processAll (l : Limiter β) (buffers : List (Nat × List β)) :
    (l.processAll buffers).1.map List.length = buffers.map fun buffer => buffer.2.length := by
  induction buffers generalizing l with
  | nil => rfl
  | cons buffer rest ih =>
    rw [processAll, Mix.thread_cons, List.map_cons, ← processAll, ih, length_process, List.map_cons]

end Buffers

/-! ## The peak of a frame -/

theorem foldl_larger_le_iff (samples : List ℚ) (start bound : ℚ) :
    samples.foldl (fun most s => Scalar.larger most (Scalar.magnitude s)) start ≤ bound
      ↔ start ≤ bound ∧ ∀ s ∈ samples, |s| ≤ bound := by
  induction samples generalizing start with
  | nil => simp
  | cons s rest ih =>
    rw [List.foldl_cons, ih, Scalar.larger_rat, Scalar.magnitude_rat, max_le_iff, and_assoc,
      List.forall_mem_cons]

/-- A frame is within a bound as its samples are. -/
theorem peak_le_iff {bound : ℚ} (h : 0 ≤ bound) (samples : List ℚ) :
    peak samples ≤ bound ↔ ∀ s ∈ samples, |s| ≤ bound := by
  rw [peak, foldl_larger_le_iff, Scalar.ofNat_rat, Nat.cast_zero]
  exact and_iff_right h

theorem abs_le_peak {samples : List ℚ} {s : ℚ} (h : s ∈ samples) : |s| ≤ peak samples :=
  ((foldl_larger_le_iff samples _ _).mp (le_refl (peak samples))).2 s h

/-! ## One frame -/

/-- What is asked of a limiter: it lets something through, and of a reduction no more is left after a
frame than there was. -/
structure IsTuned (l : Limiter ℚ) : Prop where
  ceiling_pos : 0 < l.ceiling
  release_nonneg : 0 ≤ l.release
  release_le_one : l.release ≤ 1
  gain_pos : 0 < l.gain
  gain_le_one : l.gain ≤ 1

variable {l : Limiter ℚ}

theorem target_of_lt {samples : List ℚ} (h : l.ceiling < peak samples) :
    l.target samples = l.ceiling / peak samples := if_pos h

theorem target_of_le {samples : List ℚ} (h : peak samples ≤ l.ceiling) : l.target samples = 1 :=
  (if_neg (not_lt.mpr h)).trans (by simp)

theorem target_pos (h : 0 < l.ceiling) (samples : List ℚ) : 0 < l.target samples := by
  rcases lt_or_ge l.ceiling (peak samples) with hloud | hquiet
  · rw [target_of_lt hloud]
    exact div_pos h (h.trans hloud)
  · rw [target_of_le hquiet]
    exact one_pos

theorem target_le_one (h : 0 < l.ceiling) (samples : List ℚ) : l.target samples ≤ 1 := by
  rcases lt_or_ge l.ceiling (peak samples) with hloud | hquiet
  · rw [target_of_lt hloud]
    exact div_le_one_of_le₀ hloud.le (h.trans hloud).le
  · rw [target_of_le hquiet]

/-- With what a frame allows its samples are within the ceiling. -/
theorem abs_mul_target_le (h : 0 < l.ceiling) {samples : List ℚ} {s : ℚ} (hs : s ∈ samples) :
    |s| * l.target samples ≤ l.ceiling := by
  rcases lt_or_ge l.ceiling (peak samples) with hloud | hquiet
  · rw [target_of_lt hloud]
    calc |s| * (l.ceiling / peak samples)
        ≤ peak samples * (l.ceiling / peak samples) :=
          mul_le_mul_of_nonneg_right (abs_le_peak hs) (div_pos h (h.trans hloud)).le
      _ = l.ceiling := mul_div_cancel₀ _ (h.trans hloud).ne'
  · rw [target_of_le hquiet, mul_one]
    exact (abs_le_peak hs).trans hquiet

/-- The factor never goes over what the frame allows: it falls to that or stays below it. -/
theorem nextGain_le_target (h : 0 ≤ l.release) (samples : List ℚ) :
    l.nextGain samples ≤ l.target samples := by
  rw [nextGain]
  split
  · exact le_refl _
  · next hrises =>
    have hglide := mul_nonneg (sub_nonneg.mpr (not_lt.mp hrises)) h
    linarith

/-- The factor falls no further than to what the frame allows. -/
theorem min_le_nextGain (h : l.release ≤ 1) (samples : List ℚ) :
    min l.gain (l.target samples) ≤ l.nextGain samples := by
  rw [nextGain]
  split
  · exact min_le_right _ _
  · next hrises =>
    refine (min_le_left _ _).trans ?_
    have hglide := mul_nonneg (sub_nonneg.mpr (not_lt.mp hrises)) (sub_nonneg.mpr h)
    linarith

/-- What a factor does to a frame that comes behind one with the factor `before`. -/
structure Suits (ceiling before factor : ℚ) (samples : List ℚ) : Prop where
  pos : 0 < factor
  le_one : factor ≤ 1
  le_share : ceiling < peak samples → factor ≤ ceiling / peak samples
  abs_le : ∀ s ∈ samples, |s * factor| ≤ ceiling
  clamp_eq : ∀ s ∈ samples, Scalar.clamp (s * factor) (-ceiling) ceiling = s * factor
  ratio_eq : ∀ s ∈ samples, ∀ t ∈ samples, s * factor / (t * factor) = s / t
  le_of_quiet : peak samples ≤ ceiling → before ≤ factor

theorem IsTuned.suits (h : l.IsTuned) (samples : List ℚ) :
    Suits l.ceiling l.gain (l.nextGain samples) samples := by
  have hpos : 0 < l.nextGain samples :=
    (lt_min h.gain_pos (target_pos h.ceiling_pos samples)).trans_le
      (min_le_nextGain h.release_le_one samples)
  have htarget := nextGain_le_target h.release_nonneg samples
  have habs : ∀ s ∈ samples, |s * l.nextGain samples| ≤ l.ceiling := by
    intro s hs
    rw [abs_mul, abs_of_pos hpos]
    exact (mul_le_mul_of_nonneg_left htarget (abs_nonneg s)).trans (abs_mul_target_le h.ceiling_pos hs)
  constructor
  case pos => exact hpos
  case le_one => exact htarget.trans (target_le_one h.ceiling_pos samples)
  case le_share => exact fun hloud => target_of_lt hloud ▸ htarget
  case abs_le => exact habs
  case clamp_eq =>
    intro s hs
    obtain ⟨hlow, hhigh⟩ := abs_le.mp (habs s hs)
    rw [Scalar.clamp_rat (neg_le_self h.ceiling_pos.le), min_eq_left hhigh, max_eq_right hlow]
  case ratio_eq => exact fun s _ t _ => mul_div_mul_right s t hpos.ne'
  case le_of_quiet =>
    intro hquiet
    have hleast := min_le_nextGain h.release_le_one samples
    rwa [target_of_le hquiet, min_eq_left h.gain_le_one] at hleast

theorem IsTuned.next (h : l.IsTuned) (samples : List ℚ) :
    IsTuned { l with gain := l.nextGain samples } where
  ceiling_pos := h.ceiling_pos
  release_nonneg := h.release_nonneg
  release_le_one := h.release_le_one
  gain_pos := (h.suits samples).pos
  gain_le_one := (h.suits samples).le_one

/-- A frame is multiplied by its factor, and no sample is cut off. -/
theorem IsTuned.frame_eq (h : l.IsTuned) (samples : List ℚ) :
    l.frame samples
      = (samples.map (· * l.nextGain samples), { l with gain := l.nextGain samples }) := by
  rw [frame]
  exact congrArg (·, _) (List.map_congr_left (h.suits samples).clamp_eq)

/-! ## All frames -/

theorem IsTuned.thread_eq (h : l.IsTuned) (frames : List (List ℚ)) :
    Mix.thread frame frames l
      = (List.zipWith (fun factor samples => samples.map (· * factor)) (l.factors frames) frames,
          { l with gain := (l.factors frames).getLastD l.gain }) := by
  induction frames generalizing l with
  | nil => rfl
  | cons samples rest ih =>
    rw [Mix.thread_cons, h.frame_eq, ih (h.next samples), factors, List.zipWith_cons_cons,
      List.getLastD_cons]

theorem IsTuned.suits_factors (h : l.IsTuned) {frames : List (List ℚ)} {i : Nat}
    {samples : List ℚ} {before factor : ℚ} (hsamples : frames[i]? = some samples)
    (hbefore : (l.gain :: l.factors frames)[i]? = some before)
    (hfactor : (l.factors frames)[i]? = some factor) : Suits l.ceiling before factor samples := by
  induction frames generalizing l i with
  | nil => cases hsamples
  | cons first rest ih =>
    rw [factors] at hbefore hfactor
    cases i with
    | zero =>
      cases hsamples
      cases hbefore
      cases hfactor
      exact h.suits samples
    | succ i =>
      have hrest := ih (h.next first) hsamples hbefore hfactor
      exact hrest

theorem IsTuned.behind (h : l.IsTuned) (frames : List (List ℚ)) :
    IsTuned { l with gain := (l.factors frames).getLastD l.gain } := by
  induction frames generalizing l with
  | nil => exact h
  | cons samples rest ih =>
    rw [factors, List.getLastD_cons]
    exact ih (h.next samples)

theorem isTuned_reset (hceiling : 0 < l.ceiling) (hrelease : 0 ≤ l.release) (hle : l.release ≤ 1) :
    l.reset.IsTuned where
  ceiling_pos := hceiling
  release_nonneg := hrelease
  release_le_one := hle
  gain_pos := by simp [reset]
  gain_le_one := by simp [reset]

/-! ## Quiet streams -/

/-- A frame within the ceiling is let through by a limiter that no frame has moved. -/
theorem nextGain_reset {samples : List ℚ} (h : peak samples ≤ l.ceiling) :
    l.reset.nextGain samples = 1 := by
  rw [nextGain, target_of_le (l := l.reset) h]
  simp [reset]

theorem IsTuned.thread_reset (htuned : l.reset.IsTuned) {frames : List (List ℚ)}
    (h : ∀ samples ∈ frames, peak samples ≤ l.ceiling) :
    Mix.thread frame frames l.reset = (frames, l.reset) := by
  induction frames with
  | nil => rfl
  | cons samples rest ih =>
    obtain ⟨hfirst, hrest⟩ := List.forall_mem_cons.mp h
    have hframe : l.reset.frame samples = (samples, l.reset) := by
      rw [htuned.frame_eq, nextGain_reset hfirst]
      simp [reset]
    rw [Mix.thread_cons, hframe, ih hrest]

theorem IsTuned.process_reset (htuned : l.reset.IsTuned) {buffer : List ℚ}
    (h : ∀ s ∈ buffer, |s| ≤ l.ceiling) (channels : Nat) :
    l.reset.process channels buffer = (buffer, l.reset) := by
  have hwhole : (Mix.frames (max channels 1) buffer).flatten = buffer :=
    Mix.flatten_frames (by omega) buffer
  have hframes : ∀ samples ∈ Mix.frames (max channels 1) buffer, peak samples ≤ l.ceiling := by
    intro samples hsamples
    refine (peak_le_iff htuned.ceiling_pos.le samples).mpr fun s hs => h s ?_
    rw [← hwhole]
    exact List.mem_flatten.mpr ⟨samples, hsamples, hs⟩
  rw [process, htuned.thread_reset hframes]
  exact congrArg (·, l.reset) hwhole

theorem IsTuned.processAll_reset (htuned : l.reset.IsTuned) {buffers : List (Nat × List ℚ)}
    (h : ∀ buffer ∈ buffers, ∀ s ∈ buffer.2, |s| ≤ l.ceiling) :
    l.reset.processAll buffers = (buffers.map Prod.snd, l.reset) := by
  induction buffers with
  | nil => rfl
  | cons buffer rest ih =>
    obtain ⟨hfirst, hrest⟩ := List.forall_mem_cons.mp h
    rw [processAll, Mix.thread_cons, htuned.process_reset hfirst, ← processAll, ih hrest,
      List.map_cons]

/-! ## Every sequence of buffers -/

/-- A limiter that was reset, or is new, makes each frame of any buffers quieter by one factor that
keeps all its samples within the ceiling, so that none is cut off; only a frame that goes over the
ceiling lowers the factor, and buffers without one come out as they went in. -/
theorem unclipped_of_processAll (l : Limiter ℚ) (hceiling : 0 < l.ceiling) (hrelease : 0 ≤ l.release)
    (hle : l.release ≤ 1) (buffers : List (Nat × List ℚ)) :
    let run := l.reset.processAll buffers
    let frames := framesOf buffers
    let factors := l.reset.factors frames
    (run.1.map List.length = buffers.map fun buffer => buffer.2.length)
      ∧ run.1.flatten
        = (List.zipWith (fun factor samples => samples.map (· * factor)) factors frames).flatten
      ∧ factors.length = frames.length
      ∧ (∀ (i : Nat) samples before factor, frames[i]? = some samples → (1 :: factors)[i]? = some before →
          factors[i]? = some factor → Suits l.ceiling before factor samples)
      ∧ run.2 = { l with gain := factors.getLastD 1 }
      ∧ 0 < run.2.gain ∧ run.2.gain ≤ 1
      ∧ ((∀ buffer ∈ buffers, ∀ s ∈ buffer.2, |s| ≤ l.ceiling) →
          run = (buffers.map Prod.snd, l.reset)) := by
  intro run frames factors
  have htuned := isTuned_reset hceiling hrelease hle
  obtain ⟨hmade, hleft⟩ := l.reset.processAll_eq buffers
  rw [htuned.thread_eq] at hmade hleft
  have hgain : l.reset.gain = 1 := by simp [reset]
  have hstate : run.2 = { l with gain := factors.getLastD 1 } := by
    rw [← hgain]
    exact hleft
  have hbehind : run.2.IsTuned := by
    rw [show run.2 = _ from hleft]
    exact htuned.behind frames
  refine ⟨map_length_processAll _ buffers, hmade, length_factors _ frames, ?_, hstate,
    hbehind.gain_pos, hbehind.gain_le_one, fun hquiet => htuned.processAll_reset hquiet⟩
  intro i samples before factor hsamples hbefore hfactor
  exact htuned.suits_factors hsamples (hgain ▸ hbefore) hfactor

/-- A loud stereo frame, a quiet one, and then a buffer of one channel. -/
theorem unclipped_of_processAll_of_loud_frame :
    let l : Limiter ℚ := ⟨1 / 2, 1 / 2, 1 / 10⟩
    let buffers : List (Nat × List ℚ) := [(2, [1, -1 / 2, 1 / 4, 0]), (1, [1 / 10])]
    (0 < l.ceiling ∧ 0 ≤ l.release ∧ l.release ≤ 1)
      ∧ (l.reset.processAll buffers).1.flatten = [1 / 2, -1 / 4, 3 / 16, 0, 7 / 80]
      ∧ Suits (1 / 2) (1 / 2) (3 / 4) [1 / 4, 0] := by
  intro l buffers
  have htuned : 0 < l.ceiling ∧ 0 ≤ l.release ∧ l.release ≤ 1 := by norm_num [l]
  have hframes : framesOf buffers = [[1, -1 / 2], [1 / 4, 0], [1 / 10]] := by
    simp [framesOf, buffers, Mix.frames_of_ne_nil, Mix.frames_nil]
  have hfactors : l.reset.factors (framesOf buffers) = [1 / 2, 3 / 4, 7 / 8] := by
    rw [hframes]
    decide +kernel
  obtain ⟨-, hmade, -, hsuits, -⟩ :=
    unclipped_of_processAll l htuned.1 htuned.2.1 htuned.2.2 buffers
  rw [hfactors, hframes] at hmade
  refine ⟨htuned, hmade.trans (by norm_num), ?_⟩
  exact hsuits 1 [1 / 4, 0] (1 / 2) (3 / 4) (by rw [hframes]; rfl) (by rw [hfactors]; rfl)
    (by rw [hfactors]; rfl)

end Stave.Limiter
