/-
# Running calls of resolve_into

What the entries of `out` hold at every point of a call.  While the rows are driven one
by one, each entry has the lease the call took for its row; an entry that has been
passed exposes a ready row.  A call that fails gives every lease back.
-/

import TieredCache.Table.Admission

namespace TieredCache

open Math.Runs

variable {cfg : TableConfig}

/-- The variable is an entry of the call's `out` span. -/
def ResolveCall.InSpan (call : ResolveCall) (v : ℕ) : Prop :=
  call.out ≤ v ∧ v < call.out + call.rows.length

theorem ResolveCall.InSpan.sub_lt {call : ResolveCall} {v : ℕ} (h : call.InSpan v) :
    v - call.out < call.rows.length :=
  Nat.sub_lt_left_of_lt_add h.1 h.2

theorem ResolveCall.InSpan.add_sub {call : ResolveCall} {v : ℕ} (h : call.InSpan v) :
    call.out + (v - call.out) = v :=
  Nat.add_sub_cancel' h.1

/-- Entry `j` holds a lease the call has not yet seen ready. -/
def ResolvePc.Pending : ResolvePc cfg → ℕ → Prop
  | .drive i, j => i ≤ j
  | .finishing i _ _, j => i ≤ j
  | .settle i, j => i ≤ j
  | .asleep i _, j => i ≤ j
  | .unwind _ _ _, _ => True
  | _, _ => False

/-- The bytes a lease exposes are those of its ready slot. -/
structure Stable (t : Table cfg) (l : Lease cfg) : Prop where
  ready : (t.slots l.slot).state = .ready
  bytes : t.publishedSpan l.slot = l.bytes

/-- A slot that carries on keeps the lease stable. -/
theorem Stable.carries {t t' : Table cfg} {l : Lease cfg} (h : Stable t l)
    (hslot : Table.Carries (t.slots l.slot) (t'.slots l.slot)) : Stable t' l := by
  obtain ⟨hstate, -, hoffset, hbytes⟩ := hslot.ended (by rw [h.ready]; decide)
  refine ⟨hstate.trans h.ready, ?_⟩
  rw [← h.bytes, Table.publishedSpan, Table.publishedSpan, hoffset, hbytes]

namespace World

variable {w w' : World cfg} {fresh : Prop} {thread : ThreadId} {call call' : ResolveCall}
  {pc pc' : ResolvePc cfg}

/-- Entry `j` holds the lease the call took for row `j`; where generations are `fresh`
the row had been admitted under the binding the call saw. -/
def Taken (fresh : Prop) (w : World cfg) (call : ResolveCall) (j : ℕ) : Prop :=
  ∃ l, w.leases (call.out + j) = some l ∧ call.rows[j]? = some l.rowIndex ∧
    l.generation = call.generation ∧ call.taken[j]? = some l.id ∧
    (fresh → l.through = call.binding)

/-- The call started at most one fetch for each of its rows. -/
def FetchedOnce (call : ResolveCall) : Prop :=
  call.fetched.Nodup ∧ ∀ key ∈ call.fetched, ∃ row ∈ call.rows, key = (row, call.generation)

/-- Every entry holds its row's lease. -/
structure Full (fresh : Prop) (w : World cfg) (call : ResolveCall) : Prop where
  taken_length : call.taken.length = call.rows.length
  fetched : FetchedOnce call
  taken : ∀ j < call.rows.length, w.Taken fresh call j

/-- What a call has reached, by where it is. -/
def CallInv (fresh : Prop) (w : World cfg) (call : ResolveCall) : ResolvePc cfg → Prop
  | .releasing i =>
      call.taken = [] ∧ FetchedOnce call ∧
        ∀ j < call.rows.length, j < i → w.leases (call.out + j) = none
  | .phaseA =>
      call.taken = [] ∧ FetchedOnce call ∧
        ∀ j < call.rows.length, w.leases (call.out + j) = none
  | .unwind i count failure =>
      failure ≠ .ok ∧ call.taken.length = count ∧ count ≤ call.rows.length ∧ FetchedOnce call ∧
        (∀ j < call.rows.length, j < i ∨ count ≤ j → w.leases (call.out + j) = none) ∧
        (∀ j < i, ∀ id, call.taken[j]? = some id → id ∈ w.released) ∧
        ∀ j < count, i ≤ j → w.Taken fresh call j
  | .drive _ => w.Full fresh call
  | .finishing i slot fpc =>
      w.Full fresh call ∧ i < call.rows.length ∧ fpc ≠ .timedOut ∧
        ∀ l, w.leases (call.out + i) = some l → l.slot = slot
  | .settle i =>
      w.Full fresh call ∧ i < call.rows.length ∧
        ∀ l, w.leases (call.out + i) = some l → (w.table.slots l.slot).state ≠ .filling
  | .asleep i _ => w.Full fresh call ∧ i < call.rows.length
  | .returned (.ok n) => n = call.rows.length ∧ w.Full fresh call
  | .returned (.error failure) =>
      failure ≠ .ok ∧ FetchedOnce call ∧
        (∀ j < call.rows.length, w.leases (call.out + j) = none) ∧
        ∀ id ∈ call.taken, id ∈ w.released

/-- The variable belongs to a running call that has not yet seen its lease ready. -/
def Unsettled (w : World cfg) (v : ℕ) : Prop :=
  ∃ thread call pc, w.threads thread = .resolving call pc ∧ call.InSpan v ∧
    pc.Pending (v - call.out)

/-- Calls use their spans alone, and are where their entries say; the leases that are
not pending expose ready rows. -/
structure CallsInv (fresh : Prop) (w : World cfg) : Prop where
  pins : w.PinInv
  inUse : ∀ thread call pc, w.threads thread = .resolving call pc →
    ∀ v, call.InSpan v → w.inUse v = true
  apart : ∀ thread thread' call call' pc pc', w.threads thread = .resolving call pc →
    w.threads thread' = .resolving call' pc' → ∀ v, call.InSpan v → call'.InSpan v →
    thread = thread'
  call : ∀ thread call pc, w.threads thread = .resolving call pc → w.CallInv fresh call pc
  stable : ∀ v l, w.leases v = some l → ¬ w.Unsettled v → Stable w.table l

/-- What a step does to leases and calls: calls stay in order, the slots of leases carry
on, and a lease on a ready row is released or stays as it is. -/
structure CallsStep (fresh : Prop) (w w' : World cfg) : Prop where
  calls : w'.CallsInv fresh
  carries : w.CarriesLeases w'
  released : ∀ id ∈ w.released, id ∈ w'.released
  kept : ∀ v l, w.leases v = some l → Stable w.table l →
    l.id ∈ w'.released ∨ ∃ v', w'.leases v' = some l

/-- A step followed by one that leaves the table alone. -/
theorem CallsStep.trans {w'' : World cfg} (h : CallsStep fresh w w') (h' : CallsStep fresh w' w'')
    (htable : w''.table = w'.table) : CallsStep fresh w w'' where
  calls := h'.calls
  carries := fun v l hv => by
    rw [htable]
    exact h.carries v l hv
  released := fun id hid => h'.released id (h.released id hid)
  kept := fun v l hv hstable => by
    rcases h.kept v l hv hstable with hid | ⟨v', hv'⟩
    · exact Or.inl (h'.released _ hid)
    · exact h'.kept v' l hv' (hstable.carries (h.carries v l hv))

theorem inSpan_add {j : ℕ} (hj : j < call.rows.length) : call.InSpan (call.out + j) :=
  ⟨Nat.le_add_right _ _, Nat.add_lt_add_left hj _⟩

/-! ## What other agents leave alone -/

/-- Entries that still hold their leases. -/
theorem Taken.congr {j : ℕ} (h : w.Taken fresh call j)
    (hleases : w'.leases (call.out + j) = w.leases (call.out + j)) : w'.Taken fresh call j := by
  obtain ⟨l, hl, hrest⟩ := h
  exact ⟨l, hleases.trans hl, hrest⟩

theorem Full.congr (h : w.Full fresh call)
    (hleases : ∀ v, call.InSpan v → w'.leases v = w.leases v) : w'.Full fresh call :=
  ⟨h.taken_length, h.fetched, fun j hj => (h.taken j hj).congr (hleases _ (inSpan_add hj))⟩

/-- A call whose entries are left alone is where it was. -/
theorem CallInv.congr (h : w.CallInv fresh call pc)
    (hleases : ∀ v, call.InSpan v → w'.leases v = w.leases v)
    (hreleased : ∀ id ∈ w.released, id ∈ w'.released) (hcarries : w.CarriesLeases w') :
    w'.CallInv fresh call pc := by
  have hentry : ∀ j < call.rows.length, w'.leases (call.out + j) = w.leases (call.out + j) :=
    fun j hj => hleases _ (inSpan_add hj)
  cases pc with
  | releasing i =>
      obtain ⟨htaken, hfetched, hempty⟩ := h
      exact ⟨htaken, hfetched, fun j hj hji => (hentry j hj).trans (hempty j hj hji)⟩
  | phaseA =>
      obtain ⟨htaken, hfetched, hempty⟩ := h
      exact ⟨htaken, hfetched, fun j hj => (hentry j hj).trans (hempty j hj)⟩
  | unwind i count failure =>
      obtain ⟨hne, hlength, hle, hfetched, hempty, hback, htaken⟩ := h
      refine ⟨hne, hlength, hle, hfetched, fun j hj hout => (hentry j hj).trans (hempty j hj hout),
        fun j hj id hid => hreleased id (hback j hj id hid), fun j hj hij => ?_⟩
      exact (htaken j hj hij).congr (hentry j (lt_of_lt_of_le hj hle))
  | drive i => exact Full.congr h hleases
  | finishing i slot fpc =>
      obtain ⟨hfull, hi, hpc, hslot⟩ := h
      refine ⟨hfull.congr hleases, hi, hpc, fun l hl => ?_⟩
      rw [hentry i hi] at hl
      exact hslot l hl
  | settle i =>
      obtain ⟨hfull, hi, hended⟩ := h
      refine ⟨hfull.congr hleases, hi, fun l hl => ?_⟩
      rw [hentry i hi] at hl
      have hstate := hended l hl
      rw [((hcarries _ l hl).ended hstate).1]
      exact hstate
  | asleep i since => exact ⟨h.1.congr hleases, h.2⟩
  | returned result =>
      cases result with
      | ok n => exact ⟨h.1, h.2.congr hleases⟩
      | error failure =>
          obtain ⟨hne, hfetched, hempty, hback⟩ := h
          exact ⟨hne, hfetched, fun j hj => (hentry j hj).trans (hempty j hj),
            fun id hid => hreleased id (hback id hid)⟩

namespace CallsInv

theorem start (h : cfg.Accepted) : (World.start cfg h).CallsInv fresh where
  pins := .start h
  inUse := fun thread call pc hpc => by cases hpc
  apart := fun thread thread' call call' pc pc' hpc => by cases hpc
  call := fun thread call pc hpc => by cases hpc
  stable := fun v l hv => by cases hv

/-- No call moves: the step touches only variables that no call uses. -/
theorem outside (h : w.CallsInv fresh) (hpins : w'.PinInv)
    (hcalls : ∀ thread call pc, w'.threads thread = .resolving call pc ↔
      w.threads thread = .resolving call pc)
    (hinUse : w'.inUse = w.inUse) (hleases : ∀ v, w.inUse v = true → w'.leases v = w.leases v)
    (hreleased : ∀ id ∈ w.released, id ∈ w'.released) (hcarries : w.CarriesLeases w')
    (hstable : ∀ v l, w.inUse v = false → w'.leases v = some l → Stable w'.table l)
    (hkept : ∀ v l, w.inUse v = false → w.leases v = some l →
      l.id ∈ w'.released ∨ ∃ v', w'.leases v' = some l) : CallsStep fresh w w' where
  calls :=
    { pins := hpins
      inUse := fun thread call pc hpc v hv => by
        rw [hinUse]
        exact h.inUse thread call pc ((hcalls _ _ _).mp hpc) v hv
      apart := fun thread thread' call call' pc pc' hpc hpc' =>
        h.apart _ _ _ _ _ _ ((hcalls _ _ _).mp hpc) ((hcalls _ _ _).mp hpc')
      call := fun thread call pc hpc => by
        have hpc := (hcalls _ _ _).mp hpc
        exact (h.call thread call pc hpc).congr
          (fun v hv => hleases v (h.inUse thread call pc hpc v hv)) hreleased hcarries
      stable := fun v l hv hsettled => by
        cases huse : w.inUse v with
        | false => exact hstable v l huse hv
        | true =>
            rw [hleases v huse] at hv
            refine (h.stable v l hv ?_).carries (hcarries v l hv)
            rintro ⟨thread, call, pc, hpc, hrest⟩
            exact hsettled ⟨thread, call, pc, (hcalls _ _ _).mpr hpc, hrest⟩ }
  carries := hcarries
  released := hreleased
  kept := fun v l hv _ => by
    cases huse : w.inUse v with
    | false => exact hkept v l huse hv
    | true => exact Or.inr ⟨v, by rw [hleases v huse]; exact hv⟩

/-- One call moves: the step touches only its entries. -/
theorem inside (h : w.CallsInv fresh) (hpc : w.threads thread = .resolving call pc)
    (hthreads : w'.threads = Function.update w.threads thread (.resolving call' pc'))
    (hout : call'.out = call.out) (hrows : call'.rows = call.rows) (hpins : w'.PinInv)
    (hinUse : w'.inUse = w.inUse)
    (hleases : ∀ v, ¬ call.InSpan v → w'.leases v = w.leases v)
    (hreleased : ∀ id ∈ w.released, id ∈ w'.released) (hcarries : w.CarriesLeases w')
    (hcall : w'.CallInv fresh call' pc')
    (hstable : ∀ v l, call.InSpan v → w'.leases v = some l → ¬ pc'.Pending (v - call.out) →
      Stable w'.table l)
    (hkept : ∀ v l, call.InSpan v → w.leases v = some l → Stable w.table l →
      l.id ∈ w'.released ∨ ∃ v', w'.leases v' = some l) : CallsStep fresh w w' := by
  have hspan : ∀ v, call'.InSpan v ↔ call.InSpan v := fun v => by
    unfold ResolveCall.InSpan
    rw [hout, hrows]
  -- Every call of the new state is the one that moved, or one that did not.
  have hcases : ∀ k c p, w'.threads k = .resolving c p →
      (k = thread ∧ c = call' ∧ p = pc') ∨ (k ≠ thread ∧ w.threads k = .resolving c p) := by
    intro k c p hk
    rw [hthreads] at hk
    by_cases hkt : k = thread
    · rw [hkt, Function.update_self] at hk
      cases hk
      exact Or.inl ⟨hkt, rfl, rfl⟩
    · rw [Function.update_of_ne hkt] at hk
      exact Or.inr ⟨hkt, hk⟩
  have hother : ∀ k c p v, k ≠ thread → w.threads k = .resolving c p → c.InSpan v →
      ¬ call.InSpan v := fun k c p v hk hold hv hv' =>
    hk (h.apart k thread c call p pc hold hpc v hv hv')
  refine ⟨⟨hpins, fun k c p hk v hv => ?_, fun k k' c c' p p' hk hk' v hv hv' => ?_,
    fun k c p hk => ?_, fun v l hv hsettled => ?_⟩, hcarries, hreleased, fun v l hv hstab => ?_⟩
  · rw [hinUse]
    rcases hcases k c p hk with ⟨rfl, rfl, rfl⟩ | ⟨-, hold⟩
    · exact h.inUse k call pc hpc v ((hspan v).mp hv)
    · exact h.inUse k c p hold v hv
  · rcases hcases k c p hk with ⟨rfl, rfl, rfl⟩ | ⟨hne, hold⟩ <;>
      rcases hcases k' c' p' hk' with ⟨rfl, rfl, rfl⟩ | ⟨hne', hold'⟩
    · rfl
    · exact absurd ((hspan v).mp hv) (hother k' c' p' v hne' hold' hv')
    · exact absurd ((hspan v).mp hv') (hother k c p v hne hold hv)
    · exact h.apart k k' c c' p p' hold hold' v hv hv'
  · rcases hcases k c p hk with ⟨rfl, rfl, rfl⟩ | ⟨hne, hold⟩
    · exact hcall
    · exact (h.call k c p hold).congr (fun v hv => hleases v (hother k c p v hne hold hv))
        hreleased hcarries
  · by_cases hin : call.InSpan v
    · refine hstable v l hin hv fun hpending => hsettled ?_
      refine ⟨thread, call', pc', by rw [hthreads, Function.update_self], (hspan v).mpr hin, ?_⟩
      rwa [hout]
    · rw [hleases v hin] at hv
      refine (h.stable v l hv ?_).carries (hcarries v l hv)
      rintro ⟨k, c, p, hk, hv', hpending⟩
      have hne : k ≠ thread := by
        rintro rfl
        rw [hpc] at hk
        cases hk
        exact hin hv'
      exact hsettled ⟨k, c, p, by rw [hthreads, Function.update_of_ne hne]; exact hk, hv', hpending⟩
  · by_cases hin : call.InSpan v
    · exact hkept v l hin hv hstab
    · exact Or.inr ⟨v, (hleases v hin).trans hv⟩

end CallsInv

end World

end TieredCache
