import Mathlib.Algebra.BigOperators.Ring.Finset
import Mathlib.Algebra.BigOperators.Ring.List
import Mathlib.Tactic.FieldSimp
import Mathlib.Tactic.Linarith
import Mathlib.Tactic.Positivity
import Stave.Proofs.Sound.Rationals
import Stave.Proofs.Time.Run
import Stave.Proofs.Time.Ticks

/-!
# A clock that does not drift

Read over the rational numbers, a block moves the clock by the whole part of the ticks that it takes,
and what is left of them is carried into the next block.  So over any run the exact ticks are those
counted and the fraction carried, whatever becomes of tempo, block length and position on the way.
Only what a word cannot count is lost: where a block takes more ticks than a word counts, or ends behind
the last tick of a word.  The frames played are counted by a word of their own, which wraps around.
-/

namespace Stave.Transport

/-! ## One block -/

section

variable (t : Transport ℚ) (frames : Nat)

/-- The ticks, fraction included, that some frames take at the tempo of a clock. -/
def exact : ℚ := frames * t.bpm * 960 / (60 * t.sampleRate)

/-- Where a block ends if a word can count so far. -/
def reached : Nat := t.position.toNat + ⌊t.elapsed frames⌋₊

theorem elapsed_eq : t.elapsed frames = t.carry + t.exact frames := by
  show t.carry + frames / t.sampleRate * t.bpm / ((60 : ℕ) : ℚ) * ((960 : ℕ) : ℚ) = _
  rw [exact]
  push_cast
  congr 1
  rw [mul_comm (60 : ℚ), ← div_div]
  ring

theorem carry_move : (t.move frames).2.carry = t.elapsed frames - ⌊t.elapsed frames⌋ := rfl

theorem toNat_finish_move :
    (t.move frames).1.finish.toNat
      = (t.position.toNat + min ⌊t.elapsed frames⌋₊ (2 ^ 64 - 1)) % 2 ^ 64 := by
  show (t.position + Ticks.ofNat (Scalar.toNat (Scalar.floor (t.elapsed frames)))).toNat = _
  rw [Scalar.toNat_floor, Ticks.toNat_add, Ticks.toNat_ofNat, Nat.add_mod_mod]

/-- A block never ends behind where it should. -/
theorem toNat_finish_le_reached : (t.move frames).1.finish.toNat ≤ t.reached frames := by
  rw [toNat_finish_move, reached]
  exact (Nat.mod_le _ _).trans (Nat.add_le_add_left (min_le_left _ _) _)

/-- A block ends where it should exactly where a word can count so far. -/
theorem toNat_finish_eq_reached_iff :
    (t.move frames).1.finish.toNat = t.reached frames ↔ t.reached frames < 2 ^ 64 := by
  constructor
  · intro h
    rw [← h]
    exact Ticks.toNat_lt _
  · intro h
    rw [reached] at h
    rw [toNat_finish_move, min_eq_left (by omega), Nat.mod_eq_of_lt h, reached]

end

/-! ## Runs -/

/-- What is done to a clock. -/
inductive Step (α : Type)
  | setTempo (bpm : α)
  | advance (frames : Nat)
  | seek (position : Ticks)

namespace Step

variable {α : Type}

/-- The frames that a step plays, if it plays any. -/
def frames? : Step α → Option Nat
  | .advance frames => some frames
  | _ => none

/-- Whether a step only changes the tempo. -/
def IsTempo : Step α → Prop
  | .setTempo _ => True
  | _ => False

/-- Whether a step jumps. -/
def IsSeek : Step α → Prop
  | .seek _ => True
  | _ => False

end Step

/-- A move of the clock. -/
structure Move (α : Type) where
  /-- The clock before the move. -/
  clock : Transport α
  frames : Nat
  window : Window

section

variable {α : Type} [Scalar α]

/-- Takes one step. -/
def step (t : Transport α) : Step α → Transport α
  | .setTempo bpm => t.setTempo bpm
  | .advance frames => (t.advance frames).2
  | .seek position => t.seek position

/-- The move that a step makes, if it makes one. -/
def move? (t : Transport α) : Step α → Option (Move α)
  | .advance frames => (t.advance frames).1.map fun window => ⟨t, frames, window⟩
  | _ => none

/-- The clock after some steps. -/
def after (t : Transport α) (steps : List (Step α)) : Transport α := steps.foldl step t

/-- The moves of some steps. -/
def moves : Transport α → List (Step α) → List (Move α)
  | _, [] => []
  | t, s :: rest => (t.move? s).toList ++ (t.step s).moves rest

variable {t : Transport α}

theorem advance_of_playing (h : t.playing = true) (frames : Nat) :
    t.advance frames = (some (t.move frames).1, (t.move frames).2) := by
  rw [advance, if_pos h]

theorem step_advance (h : t.playing = true) (frames : Nat) :
    t.step (.advance frames) = (t.move frames).2 := by
  rw [step, advance_of_playing h]

theorem moves_advance (h : t.playing = true) (frames : Nat) (rest : List (Step α)) :
    t.moves (.advance frames :: rest)
      = ⟨t, frames, (t.move frames).1⟩ :: (t.move frames).2.moves rest := by
  rw [moves, step_advance h, move?, advance_of_playing h]
  rfl

theorem after_advance (h : t.playing = true) (frames : Nat) (rest : List (Step α)) :
    t.after (.advance frames :: rest) = (t.move frames).2.after rest := by
  rw [after, List.foldl_cons, step_advance h]
  rfl

theorem after_append (t : Transport α) (earlier later : List (Step α)) :
    t.after (earlier ++ later) = (t.after earlier).after later := List.foldl_append

theorem playing_step (h : t.playing = true) (s : Step α) : (t.step s).playing = true := by
  cases s with
  | setTempo bpm => exact h
  | advance frames => rwa [step_advance h]
  | seek position => exact h

theorem playing_after (h : t.playing = true) (steps : List (Step α)) :
    (t.after steps).playing = true := by
  induction steps generalizing t with
  | nil => exact h
  | cons s rest ih => exact ih (playing_step h s)

/-- A playing clock makes a move for each block of frames. -/
theorem frames_moves (h : t.playing = true) (steps : List (Step α)) :
    (t.moves steps).map Move.frames = steps.filterMap Step.frames? := by
  induction steps generalizing t with
  | nil => rfl
  | cons s rest ih =>
    have hrest := ih (playing_step h s)
    cases s with
    | setTempo bpm => exact hrest
    | seek position => exact hrest
    | advance frames =>
      rw [step_advance h] at hrest
      rw [moves_advance h, List.map_cons, hrest]
      rfl

/-- A move is what the clock before it does. -/
theorem window_of_mem_moves (h : t.playing = true) {steps : List (Step α)} {m : Move α}
    (hm : m ∈ t.moves steps) :
    m.window = (m.clock.move m.frames).1 ∧ m.clock.sampleRate = t.sampleRate := by
  induction steps generalizing t with
  | nil => cases hm
  | cons s rest ih =>
    cases s with
    | setTempo bpm => exact ih (t := t.setTempo bpm) h hm
    | seek position => exact ih (t := t.seek position) h hm
    | advance frames =>
      rw [moves_advance h, List.mem_cons] at hm
      rcases hm with rfl | hm
      · exact ⟨rfl, rfl⟩
      · exact ih (t := (t.move frames).2) h hm

/-- Where every tempo set is the one that a clock has, all moves have it. -/
theorem bpm_of_mem_moves (h : t.playing = true) {steps : List (Step α)}
    (hsteps : ∀ bpm, .setTempo bpm ∈ steps → bpm = t.bpm) {m : Move α} (hm : m ∈ t.moves steps) :
    m.clock.bpm = t.bpm := by
  induction steps generalizing t with
  | nil => cases hm
  | cons s rest ih =>
    have hrest : ∀ bpm, .setTempo bpm ∈ rest → bpm = t.bpm := fun bpm hbpm =>
      hsteps bpm (List.mem_cons_of_mem s hbpm)
    cases s with
    | setTempo bpm =>
      obtain rfl := hsteps bpm List.mem_cons_self
      exact ih (t := t.setTempo t.bpm) h hrest hm
    | seek position => exact ih (t := t.seek position) h hrest hm
    | advance frames =>
      rw [moves_advance h, List.mem_cons] at hm
      rcases hm with rfl | hm
      · rfl
      · exact ih (t := (t.move frames).2) h hrest hm

theorem position_after_of_isTempo (t : Transport α) {steps : List (Step α)}
    (h : ∀ s ∈ steps, s.IsTempo) : (t.after steps).position = t.position := by
  induction steps generalizing t with
  | nil => rfl
  | cons s rest ih =>
    obtain ⟨hs, hrest⟩ := List.forall_mem_cons.mp h
    cases s with
    | setTempo bpm => exact ih (t.setTempo bpm) hrest
    | advance frames => exact hs.elim
    | seek position => exact hs.elim

/-- Between two blocks with nothing but changes of tempo, time is without a gap. -/
theorem windows_join (h : t.playing = true) {tempos : List (Step α)}
    (htempos : ∀ s ∈ tempos, s.IsTempo) (frames next : Nat) :
    ∃ w w', (t.advance frames).1 = some w
      ∧ ((t.after (.advance frames :: tempos)).advance next).1 = some w' ∧ w'.start = w.finish := by
  have hplaying := playing_after h (.advance frames :: tempos)
  refine ⟨_, _, by rw [advance_of_playing h], by rw [advance_of_playing hplaying], ?_⟩
  rw [start_move, after_advance h, position_after_of_isTempo _ htempos, position_move]

/-- A clock counts the frames of all its moves, as far as a word counts. -/
theorem startFrame_moves (h : t.playing = true) {steps : List (Step α)}
    {earlier later : List (Move α)} {m : Move α} (hsplit : t.moves steps = earlier ++ m :: later) :
    m.window.startFrame = (t.framesPlayed + (earlier.map Move.frames).sum) % 2 ^ 64 := by
  induction steps generalizing t earlier with
  | nil => exact absurd hsplit.symm (List.append_ne_nil_of_right_ne_nil _ (List.cons_ne_nil _ _))
  | cons s rest ih =>
    cases s with
    | setTempo bpm => exact ih (t := t.setTempo bpm) h hsplit
    | seek position => exact ih (t := t.seek position) h hsplit
    | advance frames =>
      rw [moves_advance h] at hsplit
      cases earlier with
      | nil =>
        obtain ⟨rfl, -⟩ := List.cons.inj hsplit
        exact (Nat.mod_eq_of_lt t.played.toNat_lt).symm
      | cons first earlier =>
        obtain ⟨rfl, hrest⟩ := List.cons.inj hsplit
        rw [ih (t := (t.move frames).2) h hrest, framesPlayed_move, Nat.mod_add_mod, List.map_cons,
          List.sum_cons, ← Nat.add_assoc]

end

/-! ## What is counted -/

namespace Move

/-- The ticks by which a move goes on. -/
def covered (m : Move ℚ) : ℚ := m.window.finish.toNat - m.window.start.toNat

/-- Whether a word can count as far as a move goes. -/
def IsCounted (m : Move ℚ) : Prop := m.clock.reached m.frames < 2 ^ 64

instance (m : Move ℚ) : Decidable m.IsCounted :=
  inferInstanceAs (Decidable (m.clock.reached m.frames < 2 ^ 64))

/-- The whole ticks that a move should cover and does not. -/
def lost (m : Move ℚ) : Nat := m.clock.reached m.frames - m.window.finish.toNat

end Move

/-- What holds of a clock that plays at a tempo. -/
structure Runs (t : Transport ℚ) : Prop where
  playing : t.playing = true
  sampleRate_pos : 0 < t.sampleRate
  bpm_nonneg : 0 ≤ t.bpm
  carry_nonneg : 0 ≤ t.carry
  carry_lt : t.carry < 1

/-- Whether all tempos that some steps set are allowed. -/
def TemposNonneg (steps : List (Step ℚ)) : Prop := ∀ bpm, .setTempo bpm ∈ steps → 0 ≤ bpm

theorem TemposNonneg.of_cons {s : Step ℚ} {rest : List (Step ℚ)} (h : TemposNonneg (s :: rest)) :
    TemposNonneg rest := fun bpm hbpm => h bpm (List.mem_cons_of_mem s hbpm)

namespace Runs

variable {t : Transport ℚ}

theorem exact_nonneg (h : t.Runs) (frames : Nat) : 0 ≤ t.exact frames := by
  have hbpm := h.bpm_nonneg
  rw [exact]
  positivity

/-- The whole ticks of a block and what it carries on make up its ticks. -/
theorem floor_add_carry (h : t.Runs) (frames : Nat) :
    (⌊t.elapsed frames⌋₊ : ℚ) + (t.move frames).2.carry = t.carry + t.exact frames := by
  have hnonneg : 0 ≤ t.elapsed frames := by
    rw [elapsed_eq]
    exact add_nonneg h.carry_nonneg (h.exact_nonneg frames)
  rw [natCast_floor_eq_intCast_floor hnonneg, carry_move, add_sub_cancel, elapsed_eq]

theorem move (h : t.Runs) (frames : Nat) : (t.move frames).2.Runs where
  playing := h.playing
  sampleRate_pos := h.sampleRate_pos
  bpm_nonneg := h.bpm_nonneg
  carry_nonneg := Int.fract_nonneg (t.elapsed frames)
  carry_lt := Int.fract_lt_one (t.elapsed frames)

theorem step (h : t.Runs) {s : Step ℚ} {rest : List (Step ℚ)} (hs : TemposNonneg (s :: rest)) :
    (t.step s).Runs := by
  cases s with
  | setTempo bpm => exact { h with bpm_nonneg := hs bpm List.mem_cons_self }
  | seek position => exact { h with }
  | advance frames =>
    rw [step_advance h.playing]
    exact h.move frames

theorem after (h : t.Runs) {steps : List (Step ℚ)} (hsteps : TemposNonneg steps) :
    (t.after steps).Runs := by
  induction steps generalizing t with
  | nil => exact h
  | cons s rest ih => exact ih (h.step hsteps) hsteps.of_cons

/-- The exact ticks of a move are those it covers, those it loses and what it adds to the carry. -/
theorem exact_move (h : t.Runs) (frames : Nat) :
    let m : Move ℚ := ⟨t, frames, (t.move frames).1⟩
    t.exact frames + t.carry = m.covered + m.lost + (t.move frames).2.carry := by
  intro m
  have hle := t.toNat_finish_le_reached frames
  have hfloor := h.floor_add_carry frames
  rw [Move.covered, Move.lost, start_move, Nat.cast_sub hle, reached, Nat.cast_add]
  linarith

/-- Over a run the exact ticks are those covered, those lost and what the carry has grown by. -/
theorem sum_exact (h : t.Runs) {steps : List (Step ℚ)} (hsteps : TemposNonneg steps) :
    ((t.moves steps).map fun m => m.clock.exact m.frames).sum + t.carry
      = ((t.moves steps).map Move.covered).sum + ((t.moves steps).map Move.lost).sum
        + (t.after steps).carry := by
  induction steps generalizing t with
  | nil => simp [moves, Transport.after]
  | cons s rest ih =>
    have hrest := ih (h.step hsteps) hsteps.of_cons
    cases s with
    | setTempo bpm => exact hrest
    | seek position => exact hrest
    | advance frames =>
      have hmove := h.exact_move frames
      rw [step_advance h.playing] at hrest
      rw [moves_advance h.playing, after_advance h.playing]
      simp only [List.map_cons, List.sum_cons, Nat.cast_add]
      linarith

/-- Without jumps the ticks covered and lost lead from the position before a run to the one behind it,
and nothing is lost unless they lead beyond a word. -/
theorem position_add_lost (h : t.Runs) {steps : List (Step ℚ)} (hsteps : TemposNonneg steps)
    (hseek : ∀ s ∈ steps, ¬ s.IsSeek) :
    let lost := ((t.moves steps).map Move.lost).sum
    ((t.after steps).position.toNat : ℚ)
        = t.position.toNat + ((t.moves steps).map Move.covered).sum
      ∧ t.position.toNat ≤ (t.after steps).position.toNat + lost
      ∧ (lost ≠ 0 → 2 ^ 64 ≤ (t.after steps).position.toNat + lost) := by
  induction steps generalizing t with
  | nil => simp [moves, Transport.after]
  | cons s rest ih =>
    obtain ⟨hs, hseekRest⟩ := List.forall_mem_cons.mp hseek
    have hrest := ih (h.step hsteps) hsteps.of_cons hseekRest
    cases s with
    | setTempo bpm => exact hrest
    | seek position => exact absurd trivial hs
    | advance frames =>
      rw [step_advance h.playing] at hrest
      obtain ⟨hcovered, hle, hlost⟩ := hrest
      have hreach := t.toNat_finish_le_reached frames
      have hcounted := t.toNat_finish_eq_reached_iff frames
      have hfrom : t.position.toNat ≤ t.reached frames := Nat.le_add_right _ _
      rw [moves_advance h.playing, after_advance h.playing]
      simp only [List.map_cons, List.sum_cons, Move.covered, Move.lost, start_move]
      rw [position_move] at hcovered hle
      refine ⟨by rw [hcovered]; ring, by omega, fun hne => ?_⟩
      by_cases hword : t.reached frames < 2 ^ 64
      · have heq := hcounted.mpr hword
        have := hlost (by omega)
        omega
      · omega

/-- Without jumps a clock that starts at zero stands at the whole part of the exact ticks, as long as
a word can count so far. -/
theorem position_eq_floor_iff (h : t.Runs) {steps : List (Step ℚ)} (hsteps : TemposNonneg steps)
    (hseek : ∀ s ∈ steps, ¬ s.IsSeek) (hposition : t.position = Ticks.zero) (hcarry : t.carry = 0) :
    let ticks := ((t.moves steps).map fun m => m.clock.exact m.frames).sum
    (t.after steps).position.toNat = ⌊ticks⌋₊ ↔ ticks < 2 ^ 64 := by
  intro ticks
  have hafter := h.after hsteps
  have hsum := h.sum_exact hsteps
  obtain ⟨hcovered, -, hword⟩ := h.position_add_lost hsteps hseek
  rw [hposition, Ticks.toNat_zero, Nat.cast_zero, zero_add] at hcovered
  rw [hcarry, add_zero, ← hcovered] at hsum
  have hlt := (t.after steps).position.toNat_lt
  generalize ((t.moves steps).map Move.lost).sum = lost at hword hsum
  generalize (t.after steps).position.toNat = position at hword hsum hlt ⊢
  -- the whole part of the ticks is the position with what has been lost
  have hfloor : ⌊ticks⌋₊ = position + lost := by
    have hticks : ticks = (t.after steps).carry + (position + lost : ℕ) := by
      rw [add_comm, Nat.cast_add]
      exact hsum
    rw [hticks, Nat.floor_add_natCast hafter.carry_nonneg, Nat.floor_eq_zero.mpr hafter.carry_lt,
      Nat.zero_add]
  have hnonneg : 0 ≤ ticks := by
    have hcarryNonneg := hafter.carry_nonneg
    have hticks : ticks = position + lost + (t.after steps).carry := hsum
    rw [hticks]
    positivity
  have hless : ticks < 2 ^ 64 ↔ position + lost < 2 ^ 64 := by
    rw [← hfloor, Nat.floor_lt hnonneg]
    norm_num
  rw [hfloor, hless]
  omega

end Runs

/-- A clock that starts at zero. -/
theorem runs_new {bpm : ℚ} {sampleRate : Nat} (hrate : 1 ≤ sampleRate) (hbpm : 0 ≤ bpm) :
    (Transport.new bpm sampleRate).play.Runs where
  playing := rfl
  sampleRate_pos := hrate
  bpm_nonneg := hbpm
  carry_nonneg := le_rfl
  carry_lt := one_pos

/-- At one tempo the frames alone decide how many ticks a run takes. -/
theorem sum_exact_of_bpm {t : Transport ℚ} (h : t.playing = true) {steps : List (Step ℚ)}
    (hsteps : ∀ bpm, .setTempo bpm ∈ steps → bpm = t.bpm) :
    ((t.moves steps).map fun m => m.clock.exact m.frames).sum
      = (steps.filterMap Step.frames?).sum * t.bpm * 960 / (60 * t.sampleRate) := by
  have hsame : ((t.moves steps).map fun m => m.clock.exact m.frames)
      = (t.moves steps).map fun m => (m.frames : ℚ) * (t.bpm * 960 / (60 * t.sampleRate)) := by
    refine List.map_congr_left fun m hm => ?_
    rw [exact, (window_of_mem_moves h hm).2, bpm_of_mem_moves h hsteps hm]
    ring
  have hframes : ((t.moves steps).map fun m => (m.frames : ℚ)).sum
      = ((steps.filterMap Step.frames?).sum : ℕ) := by
    rw [← frames_moves h, Nat.cast_list_sum, List.map_map]
    rfl
  rw [hsame, List.sum_map_mul_right, hframes]
  ring

theorem lost_eq_zero_iff {m : Move ℚ} (hm : m.window = (m.clock.move m.frames).1) :
    m.lost = 0 ↔ m.IsCounted := by
  rw [Move.lost, Move.IsCounted, hm, ← toNat_finish_eq_reached_iff, Nat.sub_eq_zero_iff_le]
  exact ⟨fun h => Nat.le_antisymm (toNat_finish_le_reached _ _) h, fun h => h.ge⟩

/-- The clock does not drift.  Over any run of a clock that starts at zero the exact ticks of all
blocks are those that their windows cover, with the fraction that is carried, as long as a word can
count to the end of every block, and only then.  Windows join unless the position was set in between, and
begin at the frames played before, exactly as long as a word can count these.  Without jumps and at one
tempo the position comes from the number of frames, however they are cut into blocks, as long as a word
can count so far. -/
theorem exact_ticks_of_steps {bpm : ℚ} {sampleRate : Nat} {steps : List (Step ℚ)}
    (hrate : 1 ≤ sampleRate) (hbpm : 0 ≤ bpm) (hsteps : TemposNonneg steps) :
    let start := (Transport.new bpm sampleRate).play
    let moves := start.moves steps
    let clock := start.after steps
    moves.map Move.frames = steps.filterMap Step.frames?
      ∧ 0 ≤ clock.carry ∧ clock.carry < 1
      ∧ ((moves.map fun m => (m.frames : ℚ) * m.clock.bpm * 960 / (60 * sampleRate)).sum
          = (moves.map Move.covered).sum + clock.carry
        ↔ ∀ m ∈ moves, m.IsCounted)
      ∧ (∀ earlier frames tempos next later,
        steps = earlier ++ .advance frames :: (tempos ++ .advance next :: later) →
        (∀ s ∈ tempos, s.IsTempo) →
        ∃ w w', ((start.after earlier).advance frames).1 = some w
          ∧ ((start.after (earlier ++ .advance frames :: tempos)).advance next).1 = some w'
          ∧ w'.start = w.finish)
      ∧ (∀ earlier m later, moves = earlier ++ m :: later →
        let played := (earlier.map Move.frames).sum
        (m.window.startFrame = played ↔ played < 2 ^ 64))
      ∧ ((∀ s ∈ steps, ¬ s.IsSeek) → (∀ tempo, .setTempo tempo ∈ steps → tempo = bpm) →
        let ticks := (steps.filterMap Step.frames?).sum * bpm * 960 / (60 * sampleRate)
        (clock.position.toNat = ⌊ticks⌋₊ ↔ ticks < 2 ^ 64)) := by
  intro start moves clock
  have hruns : start.Runs := runs_new hrate hbpm
  have hafter : clock.Runs := hruns.after hsteps
  have hframes : moves.map Move.frames = steps.filterMap Step.frames? := frames_moves rfl steps
  have hmoves : ∀ m ∈ moves, m.window = (m.clock.move m.frames).1
      ∧ m.clock.sampleRate = sampleRate := fun m hm => window_of_mem_moves rfl hm
  have hexact : (moves.map fun m => (m.frames : ℚ) * m.clock.bpm * 960 / (60 * sampleRate))
      = moves.map fun m => m.clock.exact m.frames := by
    refine List.map_congr_left fun m hm => ?_
    rw [exact, (hmoves m hm).2]
  have hsum : (moves.map fun m => m.clock.exact m.frames).sum
      = (moves.map Move.covered).sum + (moves.map Move.lost).sum + clock.carry := by
    have hlaw := hruns.sum_exact hsteps
    rwa [show start.carry = 0 from rfl, add_zero] at hlaw
  have hlost : (moves.map Move.lost).sum = 0 ↔ ∀ m ∈ moves, m.IsCounted := by
    rw [List.sum_eq_zero_iff_forall_eq_nat, List.forall_mem_map]
    exact forall₂_congr fun m hm => lost_eq_zero_iff (hmoves m hm).1
  refine ⟨hframes, hafter.carry_nonneg, hafter.carry_lt, ?_, ?_, ?_, ?_⟩
  · rw [hexact, hsum, ← hlost, ← Nat.cast_eq_zero (R := ℚ)]
    constructor <;> intro h <;> linarith
  · intro earlier frames tempos next later _ htempos
    rw [after_append]
    exact windows_join (playing_after rfl earlier) htempos frames next
  · intro earlier m later hsplit played
    rw [startFrame_moves rfl hsplit, show start.framesPlayed = 0 from rfl, Nat.zero_add]
    exact Nat.mod_eq_iff_lt (by norm_num)
  · intro hseek htempo ticks
    have hticks : (moves.map fun m => m.clock.exact m.frames).sum = ticks :=
      sum_exact_of_bpm rfl htempo
    rw [← hticks]
    exact hruns.position_eq_floor_iff hsteps hseek rfl rfl

/-- A clock is moved by uneven blocks at three tempos and set back in between, as a loop does; another
one runs on at one tempo, in blocks that are shorter than a tick. -/
theorem exact_ticks_of_steps_across_tempos :
    let start := (Transport.new (97 : ℚ) 44100).play
    let steps : List (Step ℚ) := [.advance 1000, .setTempo 133, .advance 7, .advance 30000,
      .seek (Ticks.ofNat 5), .setTempo 0, .advance 64, .setTempo (1 / 3), .advance 44100]
    let short : List (Step ℚ) := [.advance 10, .advance 13, .advance 1000]
    (∀ bpm, .setTempo bpm ∈ steps → 0 ≤ bpm)
      ∧ (start.moves steps).map (fun m => (m.window.start.toNat, m.window.finish.toNat))
        = [(0, 35), (35, 35), (35, 1483), (5, 5), (5, 10)]
      ∧ ((start.moves steps).map fun m => (m.frames : ℚ) * m.clock.bpm * 960 / (60 * 44100)).sum
        = ((start.moves steps).map Move.covered).sum + (start.after steps).carry
      ∧ (start.after short).position.toNat = 36 := by
  intro start steps short
  have htempos : TemposNonneg steps := by
    intro bpm hbpm
    simp only [steps, List.mem_cons, Step.setTempo.injEq, reduceCtorEq, List.not_mem_nil, false_or,
      or_false] at hbpm
    rcases hbpm with rfl | rfl | rfl <;> norm_num
  have hshort : TemposNonneg short := fun bpm hbpm => by simp [short] at hbpm
  obtain ⟨-, -, -, hexact, -⟩ :=
    exact_ticks_of_steps (by norm_num : 1 ≤ 44100) (by norm_num : (0 : ℚ) ≤ 97) htempos
  obtain ⟨-, -, -, -, -, -, hposition⟩ :=
    exact_ticks_of_steps (by norm_num : 1 ≤ 44100) (by norm_num : (0 : ℚ) ≤ 97) hshort
  refine ⟨htempos, by decide +kernel, ?_, ?_⟩
  · exact hexact.mpr (by decide +kernel)
  · have hsame : ∀ tempo : ℚ, .setTempo tempo ∈ short → tempo = 97 := fun bpm hbpm => by
      simp [short] at hbpm
    have hcount := hposition (by simp [short, Step.IsSeek]) hsame
    exact (hcount.mpr (by decide +kernel)).trans (by decide +kernel)

/-- At a tempo of two to the power of sixty a minute takes 960 times as many ticks.  A clock stops at
the last tick of a word instead, and carries nothing of what is missing. -/
theorem long_block_is_cut_short :
    let start := (Transport.new (2 ^ 60 : ℚ) 1).play
    let steps : List (Step ℚ) := [.advance 60]
    (∀ bpm, .setTempo bpm ∈ steps → 0 ≤ bpm)
      ∧ ((start.moves steps).map fun m => (m.frames : ℚ) * m.clock.bpm * 960 / (60 * 1)).sum
        = 960 * 2 ^ 60
      ∧ (start.moves steps).map (fun m => (m.window.start.toNat, m.window.finish.toNat))
        = [(0, 2 ^ 64 - 1)]
      ∧ (start.after steps).carry = 0
      ∧ ((start.moves steps).map fun m => (m.frames : ℚ) * m.clock.bpm * 960 / (60 * 1)).sum
        ≠ ((start.moves steps).map Move.covered).sum + (start.after steps).carry := by
  intro start steps
  refine ⟨fun bpm hbpm => by simp [steps] at hbpm, ?_⟩
  decide +kernel

end Stave.Transport
