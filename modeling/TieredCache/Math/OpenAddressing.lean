/-
# Linear probing with backward-shift deletion

An open-addressing table is a cyclic array of cells, each empty or holding one
entry.  Every key has a home cell; a lookup walks forward from the home of its
key until it meets the key or an empty cell.  Deletion leaves no tombstone: it
closes the hole by moving later entries of the cluster back.

The module states the loops with explicit fuel, so that a loop that never ends
is visible as `none`, and proves that on a well-formed table with one empty cell
they end and refine insertion into and removal from a set of entries with
distinct keys.  Nothing here depends on what an entry or a key is, nor on how
homes are computed.
-/

import Mathlib.Data.Fintype.Card
import Mathlib.Logic.Function.Basic

namespace TieredCache.Math.OpenAddressing

universe uk uv

variable {K : Type uk} {V : Type uv} {m : ℕ}

/-- The cell array: `m` positions, each empty or holding one entry. -/
abbrev Cells (m : ℕ) (V : Type uv) := Fin m → Option V

/-! ## Cyclic positions -/

/-- The cell after `pos`, wrapping past the end of the array. -/
def next (pos : Fin m) : Fin m := ⟨(pos.val + 1) % m, Nat.mod_lt _ pos.pos⟩

/-- How many forward steps lead from `start` to `stop`. -/
def gap (start stop : Fin m) : ℕ := (stop.val + m - start.val) % m

theorem next_val (pos : Fin m) :
    (next pos).val = if pos.val + 1 = m then 0 else pos.val + 1 := by
  have := pos.isLt
  unfold next
  split_ifs with h
  · simp [h]
  · exact Nat.mod_eq_of_lt (by omega)

theorem gap_def (start stop : Fin m) :
    gap start stop =
      if start.val ≤ stop.val then stop.val - start.val else stop.val + m - start.val := by
  have hstart := start.isLt
  have hstop := stop.isLt
  unfold gap
  split_ifs with h
  · rw [show stop.val + m - start.val = stop.val - start.val + m by omega,
      Nat.add_mod_right, Nat.mod_eq_of_lt (by omega)]
  · exact Nat.mod_eq_of_lt (by omega)

theorem gap_lt (start stop : Fin m) : gap start stop < m := Nat.mod_lt _ start.pos

@[simp]
theorem gap_self (start : Fin m) : gap start start = 0 := by simp [gap_def]

/-- Two cells equally far from a third are the same cell. -/
theorem gap_right_injective (start : Fin m) {p q : Fin m} (h : gap start p = gap start q) : p = q := by
  have hstart := start.isLt
  have hp := p.isLt
  have hq := q.isLt
  rw [gap_def, gap_def] at h
  apply Fin.ext
  split_ifs at h <;> omega

theorem gap_pos {start stop : Fin m} (h : start ≠ stop) : 0 < gap start stop := by
  rcases Nat.eq_zero_or_pos (gap start stop) with hzero | hpos
  · exact absurd (gap_right_injective _ ((gap_self start).trans hzero.symm)) h
  · exact hpos

/-- Going on from `middle` either stays within one turn or completes it. -/
theorem gap_add_gap (start middle stop : Fin m) :
    gap start middle + gap middle stop = gap start stop ∨
      gap start middle + gap middle stop = gap start stop + m := by
  have hstart := start.isLt
  have hmiddle := middle.isLt
  have hstop := stop.isLt
  simp only [gap_def]
  split_ifs <;> omega

/-- One more step increases the distance, unless it returns to the start. -/
theorem gap_next {start pos : Fin m} (h : next pos ≠ start) :
    gap start (next pos) = gap start pos + 1 := by
  have hstart := start.isLt
  have hpos := pos.isLt
  have hne : (next pos).val ≠ start.val := fun heq => h (Fin.ext heq)
  rw [next_val] at hne
  simp only [gap_def, next_val]
  split_ifs at hne ⊢ <;> omega

/-- The step that returns to the start closes a full turn. -/
theorem gap_of_next_eq {start pos : Fin m} (h : next pos = start) :
    gap start pos + 1 = m := by
  have hpos := pos.isLt
  have hval : (next pos).val = start.val := congrArg Fin.val h
  rw [next_val] at hval
  simp only [gap_def]
  split_ifs at hval ⊢ <;> omega

/-- Stepping towards a different cell shortens the way to it. -/
theorem gap_next_left {pos stop : Fin m} (h : pos ≠ stop) :
    gap (next pos) stop + 1 = gap pos stop := by
  have hpos := pos.isLt
  have hstop := stop.isLt
  have hne : pos.val ≠ stop.val := fun heq => h (Fin.ext heq)
  simp only [gap_def, next_val]
  split_ifs <;> omega

/-! ## The loops -/

/-- The lookup loop: `none` while it is still probing, `some none` at an empty
cell, `some (some v)` at an entry with the wanted key. -/
def findFrom [DecidableEq K] (key : V → K) (cells : Cells m V) (k : K) :
    ℕ → Fin m → Option (Option V)
  | 0, _ => none
  | fuel + 1, pos =>
      match cells pos with
      | none => some none
      | some v => if key v = k then some (some v) else findFrom key cells k fuel (next pos)

/-- The insertion loop: walk to the first empty cell and fill it. -/
def insertFrom (cells : Cells m V) (v : V) : ℕ → Fin m → Option (Cells m V)
  | 0, _ => none
  | fuel + 1, pos =>
      match cells pos with
      | none => some (Function.update cells pos (some v))
      | some _ => insertFrom cells v fuel (next pos)

/-- The first loop of deletion: walk to the entry with the wanted key.  Meeting an
empty cell first is outside the loop's contract and gives `none`. -/
def locateFrom [DecidableEq K] (key : V → K) (cells : Cells m V) (k : K) :
    ℕ → Fin m → Option (Fin m)
  | 0, _ => none
  | fuel + 1, pos =>
      match cells pos with
      | none => none
      | some v => if key v = k then some pos else locateFrom key cells k fuel (next pos)

/-- The second loop of deletion: move back every later entry of the cluster that
may live in the hole, and empty the last hole. -/
def shiftFrom (home : V → Fin m) : ℕ → Fin m → Fin m → Cells m V → Option (Cells m V)
  | 0, _, _, _ => none
  | fuel + 1, hole, pos, cells =>
      match cells pos with
      | none => some (Function.update cells hole none)
      | some v =>
          if gap hole pos ≤ gap (home v) pos then
            shiftFrom home fuel pos (next pos) (Function.update cells hole (some v))
          else shiftFrom home fuel hole (next pos) cells

/-! ## Well-formed tables -/

/-- The entry `v` sits in some cell. -/
def Holds (cells : Cells m V) (v : V) : Prop := ∃ pos, cells pos = some v

/-- No empty cell separates an entry from the home of its key, and no key occurs
in two cells. -/
structure WellFormed (home : K → Fin m) (key : V → K) (cells : Cells m V) : Prop where
  chain : ∀ {pos v}, cells pos = some v →
    ∀ q, gap (home (key v)) q < gap (home (key v)) pos → cells q ≠ none
  unique : ∀ {p q v w}, cells p = some v → cells q = some w → key v = key w → p = q

theorem wellFormed_empty (home : K → Fin m) (key : V → K) :
    WellFormed home key (fun _ => none) := by
  constructor
  · intro pos v h
    cases h
  · intro p q v w h
    cases h

namespace WellFormed

variable {home : K → Fin m} {key : V → K} {cells : Cells m V}

/-- Only the keys of the entries in the table matter. -/
theorem congr_key (hwf : WellFormed home key cells) {key' : V → K}
    (hkey : ∀ v, Holds cells v → key' v = key v) : WellFormed home key' cells := by
  constructor
  · intro pos v hpos q hq
    rw [hkey v ⟨pos, hpos⟩] at hq
    exact hwf.chain hpos q hq
  · intro p q v w hp hq h
    rw [hkey v ⟨p, hp⟩, hkey w ⟨q, hq⟩] at h
    exact hwf.unique hp hq h

/-- Entries of a table with equal keys are equal. -/
theorem eq_of_key_eq (hwf : WellFormed home key cells) {v w : V}
    (hv : Holds cells v) (hw : Holds cells w) (h : key v = key w) : v = w := by
  obtain ⟨p, hp⟩ := hv
  obtain ⟨q, hq⟩ := hw
  have hpq := hwf.unique hp hq h
  rw [hpq, hq] at hp
  exact (Option.some.inj hp).symm

/-- A table with more cells than there are entries has an empty cell. -/
theorem exists_empty [Fintype V] (hwf : WellFormed home key cells)
    (hcard : Fintype.card V < m) : ∃ e, cells e = none := by
  by_contra hfull
  push Not at hfull
  have hsome : ∀ pos, ∃ v, cells pos = some v := fun pos =>
    Option.ne_none_iff_exists'.mp (hfull pos)
  choose entry hentry using hsome
  have hinj : Function.Injective entry := fun p q h =>
    hwf.unique (hentry p) (hentry q) (by rw [h])
  have hle := Fintype.card_le_of_injective entry hinj
  rw [Fintype.card_fin] at hle
  omega

/-! ## Lookup -/

/-- A walk from `start` that has met no empty cell up to and including `pos` has
not come full circle while an empty cell exists. -/
theorem gap_next_of_occupied {start pos : Fin m} (hempty : ∃ e, cells e = none)
    (hbefore : ∀ q, gap start q < gap start pos → cells q ≠ none) (hpos : cells pos ≠ none) :
    gap start (next pos) = gap start pos + 1 := by
  apply gap_next
  intro hback
  obtain ⟨e, he⟩ := hempty
  have hturn := gap_of_next_eq hback
  have hlt := gap_lt start e
  rcases Nat.lt_or_ge (gap start e) (gap start pos) with hbehind | hahead
  · exact hbefore e hbehind he
  · have : e = pos := gap_right_injective start (by omega)
    exact hpos (this ▸ he)

/-- A cell at most as far from `start` as `pos` is `pos` or lies before it. -/
theorem before_or_eq {start pos q : Fin m} (h : gap start q < gap start pos + 1) :
    gap start q < gap start pos ∨ q = pos := by
  rcases Nat.lt_or_eq_of_le (Nat.le_of_lt_succ h) with hlt | heq
  · exact Or.inl hlt
  · exact Or.inr (gap_right_injective _ heq)

private theorem findFrom_spec [DecidableEq K] {k : K} (hwf : WellFormed home key cells)
    (hempty : ∃ e, cells e = none) (fuel : ℕ) (pos : Fin m)
    (hscan : ∀ q, gap (home k) q < gap (home k) pos → ∃ v, cells q = some v ∧ key v ≠ k)
    (hfuel : m ≤ fuel + gap (home k) pos) :
    ∃ r, findFrom key cells k fuel pos = some r ∧
      ∀ v, r = some v ↔ Holds cells v ∧ key v = k := by
  induction fuel generalizing pos with
  | zero =>
      have := gap_lt (home k) pos
      omega
  | succ fuel ih =>
      cases hpos : cells pos with
      | none =>
          refine ⟨none, by simp [findFrom, hpos], fun v => ⟨fun h => (by cases h), ?_⟩⟩
          rintro ⟨⟨p, hp⟩, rfl⟩
          -- An entry with this key beyond an empty cell would break its probe chain.
          rcases Nat.lt_trichotomy (gap (home (key v)) pos) (gap (home (key v)) p) with
            hlt | heq | hgt
          · exact absurd hpos (hwf.chain hp pos hlt)
          · rw [gap_right_injective _ heq, hp] at hpos
            cases hpos
          · obtain ⟨w, hw, hne⟩ := hscan p hgt
            rw [hp] at hw
            cases hw
            exact absurd rfl hne
      | some v =>
          by_cases hkey : key v = k
          · refine ⟨some v, by simp [findFrom, hpos, hkey], fun w => ⟨fun h => ?_, fun h => ?_⟩⟩
            · cases h
              exact ⟨⟨pos, hpos⟩, hkey⟩
            · rw [hwf.eq_of_key_eq ⟨pos, hpos⟩ h.1 (hkey.trans h.2.symm)]
          · have hgap : gap (home k) (next pos) = gap (home k) pos + 1 := by
              refine gap_next_of_occupied hempty (fun q hq => ?_) (by simp [hpos])
              obtain ⟨w, hw, -⟩ := hscan q hq
              simp [hw]
            have hscan' : ∀ q, gap (home k) q < gap (home k) (next pos) →
                ∃ w, cells q = some w ∧ key w ≠ k := by
              intro q hq
              rcases before_or_eq (hgap ▸ hq) with hlt | rfl
              · exact hscan q hlt
              · exact ⟨v, hpos, hkey⟩
            simpa [findFrom, hpos, hkey] using ih (next pos) hscan' (by omega)

/-- A lookup ends within `m` probes and finds exactly the entry with its key. -/
theorem find_spec [DecidableEq K] (hwf : WellFormed home key cells)
    (hempty : ∃ e, cells e = none) (k : K) :
    ∃ r, findFrom key cells k m (home k) = some r ∧
      ∀ v, r = some v ↔ Holds cells v ∧ key v = k :=
  findFrom_spec hwf hempty m (home k) (by simp) (by simp)

/-! ## Insertion -/

private theorem insertFrom_spec (start : Fin m) (v : V) (hempty : ∃ e, cells e = none)
    (fuel : ℕ) (pos : Fin m) (hscan : ∀ q, gap start q < gap start pos → cells q ≠ none)
    (hfuel : m ≤ fuel + gap start pos) :
    ∃ p, insertFrom cells v fuel pos = some (Function.update cells p (some v)) ∧
      cells p = none ∧ ∀ q, gap start q < gap start p → cells q ≠ none := by
  induction fuel generalizing pos with
  | zero =>
      have := gap_lt start pos
      omega
  | succ fuel ih =>
      cases hpos : cells pos with
      | none => exact ⟨pos, by simp [insertFrom, hpos], hpos, hscan⟩
      | some w =>
          have hgap := gap_next_of_occupied hempty hscan (by simp [hpos])
          have hscan' : ∀ q, gap start q < gap start (next pos) → cells q ≠ none := by
            intro q hq
            rcases before_or_eq (hgap ▸ hq) with hlt | rfl
            · exact hscan q hlt
            · simp [hpos]
          simpa [insertFrom, hpos] using ih (next pos) hscan' (by omega)

/-- Inserting an entry under a new key ends, keeps the table well formed and adds
exactly that entry. -/
theorem insert_spec (hwf : WellFormed home key cells) (hempty : ∃ e, cells e = none)
    {v : V} (hnew : ∀ w, Holds cells w → key w ≠ key v) :
    ∃ cells', insertFrom cells v m (home (key v)) = some cells' ∧
      WellFormed home key cells' ∧ ∀ w, Holds cells' w ↔ Holds cells w ∨ w = v := by
  obtain ⟨p, hinsert, hp, hchain⟩ := insertFrom_spec (home (key v)) v hempty m
    (home (key v)) (by simp) (by simp)
  have hother : ∀ {q w}, Function.update cells p (some v) q = some w →
      (q = p ∧ w = v) ∨ (q ≠ p ∧ cells q = some w) := by
    intro q w hq
    by_cases hqp : q = p
    · subst hqp
      rw [Function.update_self] at hq
      exact Or.inl ⟨rfl, (Option.some.inj hq).symm⟩
    · rw [Function.update_of_ne hqp] at hq
      exact Or.inr ⟨hqp, hq⟩
  have hoccupied : ∀ q, cells q ≠ none → Function.update cells p (some v) q ≠ none := by
    intro q hq
    by_cases hqp : q = p
    · simp [hqp]
    · rwa [Function.update_of_ne hqp]
  refine ⟨_, hinsert, ⟨?_, ?_⟩, fun w => ⟨?_, ?_⟩⟩
  · intro pos w hw q hq
    rcases hother hw with ⟨rfl, rfl⟩ | ⟨-, hw⟩
    · exact hoccupied q (hchain q hq)
    · exact hoccupied q (hwf.chain hw q hq)
  · intro a b x y ha hb hkey
    rcases hother ha with ⟨ha', hx⟩ | ⟨-, hx⟩ <;> rcases hother hb with ⟨hb', hy⟩ | ⟨-, hy⟩
    · exact ha'.trans hb'.symm
    · exact absurd (hx ▸ hkey.symm) (hnew y ⟨b, hy⟩)
    · exact absurd (hy ▸ hkey) (hnew x ⟨a, hx⟩)
    · exact hwf.unique hx hy hkey
  · rintro ⟨q, hq⟩
    rcases hother hq with ⟨-, rfl⟩ | ⟨-, hq⟩
    · exact Or.inr rfl
    · exact Or.inl ⟨q, hq⟩
  · rintro (⟨q, hq⟩ | rfl)
    · have hqp : q ≠ p := fun heq => by
        rw [heq, hp] at hq
        cases hq
      exact ⟨q, by rwa [Function.update_of_ne hqp]⟩
    · exact ⟨p, Function.update_self ..⟩

/-! ## Deletion -/

private theorem locateFrom_spec [DecidableEq K] {k : K} (hwf : WellFormed home key cells)
    {p : Fin m} {v : V} (hp : cells p = some v) (hkey : key v = k) (fuel : ℕ) (pos : Fin m)
    (hscan : gap (home k) pos ≤ gap (home k) p) (hfuel : m ≤ fuel + gap (home k) pos) :
    locateFrom key cells k fuel pos = some p := by
  induction fuel generalizing pos with
  | zero =>
      have := gap_lt (home k) pos
      omega
  | succ fuel ih =>
      rcases Nat.lt_or_eq_of_le hscan with hlt | heq
      · obtain ⟨w, hw⟩ := Option.ne_none_iff_exists'.mp (hwf.chain hp pos (hkey ▸ hlt))
        have hne : key w ≠ k := fun h => by
          have : pos = p := hwf.unique hw hp (h.trans hkey.symm)
          rw [this] at hlt
          exact Nat.lt_irrefl _ hlt
        have hgap : gap (home k) (next pos) = gap (home k) pos + 1 := by
          apply gap_next
          intro hback
          have hturn := gap_of_next_eq hback
          have := gap_lt (home k) p
          omega
        simpa [locateFrom, hw, hne] using ih (next pos) (by omega) (by omega)
      · have : pos = p := gap_right_injective _ heq
        subst this
        simp [locateFrom, hp, hkey]

/-- What the shifting loop keeps while `hole` is being closed and the cells up to
`pos` have been examined.  The hole still stores a stale entry; the table proper
is the array with the hole emptied.  Only an entry that has not been examined may
have the hole on its probe chain. -/
structure Shifting (home : K → Fin m) (key : V → K) (cells : Cells m V)
    (hole pos : Fin m) : Prop where
  stale : cells hole ≠ none
  ahead : pos ≠ hole
  examined : ∀ q, gap hole q < gap hole pos → cells q ≠ none
  chain : ∀ {p v}, p ≠ hole → cells p = some v →
    ∀ q, gap (home (key v)) q < gap (home (key v)) p →
      cells q ≠ none ∧ (q = hole → gap hole pos ≤ gap hole p)
  unique : ∀ {p q v w}, p ≠ hole → q ≠ hole → cells p = some v → cells q = some w →
    key v = key w → p = q

/-- The entries of the table proper while `hole` is open. -/
def HoldsBut (cells : Cells m V) (hole : Fin m) (v : V) : Prop :=
  ∃ pos, pos ≠ hole ∧ cells pos = some v

namespace Shifting

variable {hole pos : Fin m} {v : V}

/-- Moving the entry at `pos` back into the hole opens the hole at `pos`. -/
theorem move (h : Shifting home key cells hole pos) (hempty : ∃ e, cells e = none)
    (hpos : cells pos = some v) (hfit : gap hole pos ≤ gap (home (key v)) pos) :
    Shifting home key (Function.update cells hole (some v)) pos (next pos) := by
  have hoccupied : ∀ q, cells q ≠ none → Function.update cells hole (some v) q ≠ none := by
    intro q hq
    by_cases hqh : q = hole
    · simp [hqh]
    · rwa [Function.update_of_ne hqh]
  have hnext : next pos ≠ pos := by
    intro hback
    obtain ⟨e, he⟩ := hempty
    have hturn := gap_of_next_eq hback
    have hlt := gap_lt pos e
    rw [gap_self] at hturn
    have : pos = e := gap_right_injective pos (by rw [gap_self]; omega)
    rw [← this, hpos] at he
    cases he
  -- The hole lies on the chain from the home of the moved entry to `pos`.
  have hsplit : gap (home (key v)) hole + gap hole pos = gap (home (key v)) pos := by
    have hlt := gap_lt (home (key v)) hole
    rcases gap_add_gap (home (key v)) hole pos with hsum | hsum <;> omega
  have hahead := gap_pos (Ne.symm h.ahead)
  constructor
  · exact hoccupied pos (by simp [hpos])
  · exact hnext
  · intro q hq
    rw [gap_next hnext, gap_self] at hq
    have : pos = q := gap_right_injective pos (by rw [gap_self]; omega)
    exact hoccupied q (by simp [← this, hpos])
  · intro p w hp hw q hq
    have hone : gap pos (next pos) ≤ gap pos p := by
      rw [gap_next hnext, gap_self]
      exact gap_pos (Ne.symm hp)
    refine ⟨?_, fun _ => hone⟩
    by_cases hph : p = hole
    · subst hph
      rw [Function.update_self] at hw
      cases hw
      exact hoccupied q (h.chain h.ahead hpos q (by omega)).1
    · rw [Function.update_of_ne hph] at hw
      exact hoccupied q (h.chain hph hw q hq).1
  · intro p q x y hp hq hx hy hkey
    by_cases hph : p = hole <;> by_cases hqh : q = hole
    · exact hph.trans hqh.symm
    · subst hph
      rw [Function.update_self] at hx
      rw [Function.update_of_ne hqh] at hy
      cases hx
      exact absurd (h.unique h.ahead hqh hpos hy hkey).symm hq
    · subst hqh
      rw [Function.update_self] at hy
      rw [Function.update_of_ne hph] at hx
      cases hy
      exact absurd (h.unique hph h.ahead hx hpos hkey) hp
    · rw [Function.update_of_ne hph] at hx
      rw [Function.update_of_ne hqh] at hy
      exact h.unique hph hqh hx hy hkey

/-- Moving an entry back does not change which entries the table holds. -/
theorem holdsBut_move (h : Shifting home key cells hole pos) (hpos : cells pos = some v)
    (w : V) :
    HoldsBut (Function.update cells hole (some v)) pos w ↔ HoldsBut cells hole w := by
  constructor
  · rintro ⟨p, hp, hw⟩
    by_cases hph : p = hole
    · rw [hph, Function.update_self] at hw
      exact ⟨pos, h.ahead, hw ▸ hpos⟩
    · rw [Function.update_of_ne hph] at hw
      exact ⟨p, hph, hw⟩
  · rintro ⟨p, hp, hw⟩
    by_cases hpp : p = pos
    · rw [hpp, hpos] at hw
      exact ⟨hole, Ne.symm h.ahead, by rw [Function.update_self, hw]⟩
    · exact ⟨p, hpp, by rwa [Function.update_of_ne hp]⟩

/-- An entry whose home lies beyond the hole stays where it is. -/
theorem skip (h : Shifting home key cells hole pos) (hempty : ∃ e, cells e = none)
    (hpos : cells pos = some v) (hstay : gap (home (key v)) pos < gap hole pos) :
    Shifting home key cells hole (next pos) := by
  have hgap : gap hole (next pos) = gap hole pos + 1 :=
    gap_next_of_occupied hempty h.examined (by simp [hpos])
  refine ⟨h.stale, ?_, ?_, ?_, h.unique⟩
  · intro hback
    rw [hback, gap_self] at hgap
    omega
  · intro q hq
    rcases before_or_eq (hgap ▸ hq) with hlt | rfl
    · exact h.examined q hlt
    · simp [hpos]
  · intro p w hp hw q hq
    obtain ⟨hocc, hcross⟩ := h.chain hp hw q hq
    refine ⟨hocc, fun hqh => ?_⟩
    have hle := hcross hqh
    rcases Nat.lt_or_eq_of_le hle with hlt | heq
    · omega
    · -- The entry at `pos` itself: its chain does not pass through the hole.
      have hpp : pos = p := gap_right_injective _ heq
      subst hpp
      rw [hpos] at hw
      cases hw
      subst hqh
      have hlt := gap_lt q pos
      rcases gap_add_gap (home (key v)) q pos with hsum | hsum <;> omega

/-- At the end of the cluster no chain passes through the hole any more. -/
theorem finish (h : Shifting home key cells hole pos) (hpos : cells pos = none) :
    WellFormed home key (Function.update cells hole none) := by
  have hother : ∀ {q w}, Function.update cells hole none q = some w →
      q ≠ hole ∧ cells q = some w := by
    intro q w hq
    by_cases hqh : q = hole
    · rw [hqh, Function.update_self] at hq
      cases hq
    · rw [Function.update_of_ne hqh] at hq
      exact ⟨hqh, hq⟩
  constructor
  · intro p w hpw q hq
    obtain ⟨hp, hw⟩ := hother hpw
    obtain ⟨hocc, hcross⟩ := h.chain hp hw q hq
    by_cases hqh : q = hole
    · -- Then `pos` would lie on the chain as well, but it is empty.
      exfalso
      subst hqh
      have hle := hcross rfl
      have hne : gap q pos ≠ gap q p := fun heq => by
        rw [gap_right_injective _ heq, hw] at hpos
        cases hpos
      have hlt := gap_lt (home (key w)) p
      have hturn := gap_lt q p
      refine absurd hpos (h.chain hp hw pos ?_).1
      rcases gap_add_gap (home (key w)) q p with hsum | hsum <;>
        rcases gap_add_gap (home (key w)) q pos with hsum' | hsum' <;> omega
    · rwa [Function.update_of_ne hqh]
  · intro p q x y hp hq hkey
    obtain ⟨hph, hx⟩ := hother hp
    obtain ⟨hqh, hy⟩ := hother hq
    exact h.unique hph hqh hx hy hkey

theorem holds_finish (w : V) :
    Holds (Function.update cells hole none) w ↔ HoldsBut cells hole w := by
  constructor
  · rintro ⟨p, hp⟩
    by_cases hph : p = hole
    · rw [hph, Function.update_self] at hp
      cases hp
    · rw [Function.update_of_ne hph] at hp
      exact ⟨p, hph, hp⟩
  · rintro ⟨p, hp, hw⟩
    exact ⟨p, by rwa [Function.update_of_ne hp]⟩

end Shifting

/-- The shifting loop ends at the first empty cell; it restores the table without
the entry that opened the hole. -/
private theorem shiftFrom_spec {e : Fin m} (fuel : ℕ) (cells : Cells m V) (hole pos : Fin m)
    (h : Shifting home key cells hole pos) (he : cells e = none) (hfuel : gap pos e < fuel) :
    ∃ cells', shiftFrom (fun v => home (key v)) fuel hole pos cells = some cells' ∧
      WellFormed home key cells' ∧ ∀ w, Holds cells' w ↔ HoldsBut cells hole w := by
  induction fuel generalizing cells hole pos with
  | zero => omega
  | succ fuel ih =>
      cases hpos : cells pos with
      | none =>
          exact ⟨_, by simp [shiftFrom, hpos], h.finish hpos, fun w => Shifting.holds_finish w⟩
      | some v =>
          have hpe : pos ≠ e := fun heq => by
            rw [heq, he] at hpos
            cases hpos
          have hcloser := gap_next_left hpe
          by_cases hfit : gap hole pos ≤ gap (home (key v)) pos
          · have hhe : e ≠ hole := fun heq => h.stale (heq ▸ he)
            have he' : Function.update cells hole (some v) e = none := by
              rwa [Function.update_of_ne hhe]
            obtain ⟨cells', hshift, hwf, hholds⟩ := ih _ pos (next pos)
              (h.move ⟨e, he⟩ hpos hfit) he' (by omega)
            refine ⟨cells', by simpa [shiftFrom, hpos, hfit] using hshift, hwf, fun w => ?_⟩
            rw [hholds w, h.holdsBut_move hpos w]
          · obtain ⟨cells', hshift, hwf, hholds⟩ := ih cells hole (next pos)
              (h.skip ⟨e, he⟩ hpos (by omega)) he (by omega)
            exact ⟨cells', by simpa [shiftFrom, hpos, hfit] using hshift, hwf, hholds⟩

/-- Opening a hole at an occupied cell starts the shifting loop. -/
private theorem shifting_start (hwf : WellFormed home key cells) (hempty : ∃ e, cells e = none)
    {hole : Fin m} {v : V} (hhole : cells hole = some v) :
    Shifting home key cells hole (next hole) := by
  have hgap : gap hole (next hole) = gap hole hole + 1 :=
    gap_next_of_occupied hempty (by simp) (by simp [hhole])
  rw [gap_self] at hgap
  refine ⟨by simp [hhole], fun hback => ?_, ?_, ?_, fun _ _ => hwf.unique⟩
  · rw [hback, gap_self] at hgap
    omega
  · intro q hq
    have : q = hole := gap_right_injective hole (by rw [gap_self]; omega)
    simp [this, hhole]
  · intro p w hp hw q hq
    refine ⟨hwf.chain hw q hq, fun _ => ?_⟩
    have := gap_pos (Ne.symm hp)
    omega

/-- Deleting the entry of a present key ends, keeps the table well formed and
removes exactly that entry. -/
theorem erase_spec [DecidableEq K] (hwf : WellFormed home key cells)
    (hempty : ∃ e, cells e = none) {v : V} (hv : Holds cells v) :
    ∃ hole cells', locateFrom key cells (key v) m (home (key v)) = some hole ∧
      shiftFrom (fun w => home (key w)) m hole (next hole) cells = some cells' ∧
      WellFormed home key cells' ∧ ∀ w, Holds cells' w ↔ Holds cells w ∧ w ≠ v := by
  obtain ⟨hole, hhole⟩ := hv
  obtain ⟨e, he⟩ := hempty
  have hlocate : locateFrom key cells (key v) m (home (key v)) = some hole :=
    locateFrom_spec hwf hhole rfl m (home (key v)) (by simp) (by simp)
  obtain ⟨cells', hshift, hwf', hholds⟩ := shiftFrom_spec m cells hole (next hole)
    (shifting_start hwf ⟨e, he⟩ hhole) he (gap_lt _ _)
  refine ⟨hole, cells', hlocate, hshift, hwf', fun w => ?_⟩
  rw [hholds w]
  constructor
  · rintro ⟨p, hp, hw⟩
    refine ⟨⟨p, hw⟩, fun hwv => hp ?_⟩
    exact hwf.unique hw hhole (by rw [hwv])
  · rintro ⟨⟨p, hw⟩, hwv⟩
    refine ⟨p, fun hph => hwv ?_, hw⟩
    rw [hph, hhole] at hw
    exact (Option.some.inj hw).symm

end WellFormed

end TieredCache.Math.OpenAddressing
