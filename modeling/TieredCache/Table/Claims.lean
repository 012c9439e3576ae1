/-
# Claims and live requests

A filling slot holds claims on the requests of its own fill, all made through one
transfer set, and no slot that is not filling holds any.  While no claim is given up
before its request is delivered, every live request is claimed.
-/

import TieredCache.Table.Books

namespace TieredCache

open Math.Runs

variable {cfg : TableConfig}

namespace Table

variable {t t' t'' u : Table cfg} {slot : cfg.SlotId} {shard : ℕ}

/-! ## How requests evolve -/

/-- Requests are only added and delivered, and chunks only lost. -/
structure Grows (t t' : Table cfg) : Prop where
  count : t.requestCount ≤ t'.requestCount
  later : ∀ id < t.requestCount, (t.requests id).Later (t'.requests id)
  lost : t.lostChunks ≤ t'.lostChunks

theorem Grows.refl (t : Table cfg) : Grows t t := ⟨le_rfl, fun _ _ => .refl _, le_rfl⟩

theorem Grows.trans (h : Grows t t') (h' : Grows t' t'') : Grows t t'' where
  count := h.count.trans h'.count
  later := fun id hid => (h.later id hid).trans (h'.later id (lt_of_lt_of_le hid h.count))
  lost := h.lost.trans h'.lost

theorem Submission.grows (h : Submission slot t t') : Grows t t' := by
  cases h with
  | mk slots used requests count submits lost claim scratch chunks hother hslot hcount hlater
      hlost => exact ⟨hcount, hlater, hlost⟩

theorem startFillLocked_grows (t : Table cfg) (answers : Answers) (slot : cfg.SlotId)
    (row : UInt64) : Grows t (t.startFillLocked answers slot row).2 := by
  obtain ⟨u, hu, hstart⟩ := t.startFillLocked_cases answers slot row
  have hgrows := hu.grows
  rcases hstart with ⟨length, head, hstart⟩ | ⟨status, -, hstart⟩ <;> rw [hstart]
  · exact ⟨hgrows.count, hgrows.later, hgrows.lost⟩
  · exact ⟨hgrows.count, hgrows.later, hgrows.lost⟩

theorem Edit.grows (h : Edit t t') : Grows t t' := by
  cases h with
  | quiet h =>
      cases h with
      | sweep h =>
          cases h with
          | bookkeeping h => cases h with | mk => exact ⟨le_rfl, fun _ _ => .refl _, le_rfl⟩
          | freed => exact ⟨le_rfl, fun _ _ => .refl _, le_rfl⟩
      | deliveries h =>
          cases h with
          | mk requests h => exact ⟨le_rfl, fun id _ => h id, le_rfl⟩
      | started answers slot row hfree habsent => exact t.startFillLocked_grows answers slot row
  | pinned slot => exact ⟨le_rfl, fun _ _ => .refl _, le_rfl⟩
  | unpinned slot => exact ⟨le_rfl, fun _ _ => .refl _, le_rfl⟩
  | dropped _ => exact ⟨le_rfl, fun _ _ => .refl _, le_rfl⟩
  | installed _ _ _ _ => exact ⟨le_rfl, fun _ _ => .refl _, le_rfl⟩

theorem Edits.grows (h : Edits t t') : Grows t t' := by
  induction h with
  | refl => exact .refl t
  | tail _ hlast ih => exact ih.trans hlast.grows

/-! ## The invariant on claims -/

/-- Claims belong to filling slots, one fill and one transfer set at a time, and live
requests of one transfer set do not overlap. -/
structure ClaimInv (t : Table cfg) : Prop where
  lt : ∀ s, ∀ id ∈ (t.slots s).claims, id < t.requestCount
  filling : ∀ s, ∀ id ∈ (t.slots s).claims, (t.slots s).state = .filling
  one_kind : ∀ s, (t.slots s).claim = none ∨ (t.slots s).chunkClaims = []
  own : ∀ s s', ∀ id ∈ (t.slots s).claims, id ∈ (t.slots s').claims → s = s'
  binding : ∀ s, ∀ id ∈ (t.slots s).claims, (t.requests id).binding = (t.slots s).filledThrough
  same_set : ∀ s, ∀ id ∈ (t.slots s).claims, ∀ id' ∈ (t.slots s).claims,
    (t.requests id).SameSet (t.requests id')
  planned : ∀ s, ∀ id ∈ (t.slots s).claims,
    cfg.Planned s (t.requests id).region (t.requests id).read
  apart : ∀ id id', id < t.requestCount → id' < t.requestCount → id ≠ id' →
    (t.requests id).Live → (t.requests id').Live → (t.requests id).SameSet (t.requests id') →
    ¬ (t.requests id).Overlaps (t.requests id')

/-- Every live request is claimed by a slot. -/
def LiveInv (t : Table cfg) : Prop :=
  ∀ id < t.requestCount, (t.requests id).Live → ∃ s, id ∈ (t.slots s).claims

namespace ClaimInv

theorem create (h : cfg.Accepted) : (Table.create cfg h).ClaimInv where
  lt := fun s id hid => by cases hid
  filling := fun s id hid => by cases hid
  one_kind := fun s => Or.inl rfl
  own := fun s s' id hid => by cases hid
  binding := fun s id hid => by cases hid
  same_set := fun s id hid => by cases hid
  planned := fun s id hid => by cases hid
  apart := fun id id' hid => absurd hid (Nat.not_lt_zero id)

/-- Slots that are not filling hold no claims. -/
theorem claims_eq_nil (h : t.ClaimInv) (hslot : (t.slots slot).state ≠ .filling) :
    (t.slots slot).claims = [] :=
  List.eq_nil_iff_forall_not_mem.mpr fun id hid => hslot (h.filling slot id hid)

/-- Some requests are delivered and some claims are given up. -/
theorem shrink (h : t.ClaimInv) (hcount : t'.requestCount = t.requestCount)
    (hlater : ∀ id < t.requestCount, (t.requests id).Later (t'.requests id))
    (hsub : ∀ s, ∀ id ∈ (t'.slots s).claims, id ∈ (t.slots s).claims ∧
      (t'.slots s).state = .filling ∧ (t'.slots s).filledThrough = (t.slots s).filledThrough)
    (hone : ∀ s, (t'.slots s).claim = none ∨ (t'.slots s).chunkClaims = []) : t'.ClaimInv where
  lt := fun s id hid => by
    rw [hcount]
    exact h.lt s id (hsub s id hid).1
  filling := fun s id hid => (hsub s id hid).2.1
  one_kind := hone
  own := fun s s' id hid hid' => h.own s s' id (hsub s id hid).1 (hsub s' id hid').1
  binding := fun s id hid => by
    obtain ⟨hold, -, hthrough⟩ := hsub s id hid
    rw [hthrough, ← h.binding s id hold]
    exact (hlater id (h.lt s id hold)).sameSet.1
  same_set := fun s id hid id' hid' => by
    have hold := (hsub s id hid).1
    have hold' := (hsub s id' hid').1
    obtain ⟨hb, hs, hr⟩ := (hlater id (h.lt s id hold)).sameSet
    obtain ⟨hb', hs', hr'⟩ := (hlater id' (h.lt s id' hold')).sameSet
    obtain ⟨hb'', hs'', hr''⟩ := h.same_set s id hold id' hold'
    exact ⟨by rw [hb, hb', hb''], by rw [hs, hs', hs''], by rw [hr, hr', hr'']⟩
  planned := fun s id hid => by
    have hold := (hsub s id hid).1
    have hlater := hlater id (h.lt s id hold)
    rw [hlater.sameSet.2.2, hlater.read_eq]
    exact h.planned s id hold
  apart := fun id id' hid hid' hne hlive hlive' => by
    rw [hcount] at hid hid'
    have heq := (hlater id hid).eq_of_live hlive
    have heq' := (hlater id' hid').eq_of_live hlive'
    rw [heq] at hlive ⊢
    rw [heq'] at hlive' ⊢
    exact h.apart id id' hid hid' hne hlive hlive'

/-- A change that leaves requests, claims and what they belong to alone. -/
theorem keep (h : t.ClaimInv) (hcount : t'.requestCount = t.requestCount)
    (hrequests : t'.requests = t.requests)
    (hslots : ∀ s, (t'.slots s).claim = (t.slots s).claim ∧
      (t'.slots s).chunkClaims = (t.slots s).chunkClaims ∧
      ((t.slots s).claims ≠ [] → (t'.slots s).state = (t.slots s).state ∧
        (t'.slots s).filledThrough = (t.slots s).filledThrough)) : t'.ClaimInv := by
  refine h.shrink hcount (fun id _ => by rw [hrequests]; exact .refl _) (fun s id hid => ?_)
    fun s => ?_
  · obtain ⟨hclaim, hchunks, hfill⟩ := hslots s
    have hclaims : (t'.slots s).claims = (t.slots s).claims := by
      rw [Slot.claims, hclaim, hchunks, Slot.claims]
    rw [hclaims] at hid
    obtain ⟨hstate, hthrough⟩ := hfill (List.ne_nil_of_mem hid)
    exact ⟨hid, by rw [hstate]; exact h.filling s id hid, hthrough⟩
  · rw [(hslots s).1, (hslots s).2.1]
    exact h.one_kind s

/-- A rewrite of one slot that is not its concern. -/
theorem update (h : t.ClaimInv) (hcount : t'.requestCount = t.requestCount)
    (hrequests : t'.requests = t.requests) {s' : Slot cfg}
    (hslots : t'.slots = Function.update t.slots slot s')
    (hclaim : s'.claim = (t.slots slot).claim)
    (hchunks : s'.chunkClaims = (t.slots slot).chunkClaims)
    (hfill : (t.slots slot).claims ≠ [] →
      s'.state = (t.slots slot).state ∧ s'.filledThrough = (t.slots slot).filledThrough) :
    t'.ClaimInv := by
  refine h.keep hcount hrequests fun s => ?_
  rw [hslots]
  by_cases hs : s = slot
  · subst hs
    rw [Function.update_self]
    exact ⟨hclaim, hchunks, hfill⟩
  · rw [Function.update_of_ne hs]
    exact ⟨rfl, rfl, fun _ => ⟨rfl, rfl⟩⟩

/-- A slot gives up its claims. -/
theorem clear (h : t.ClaimInv) (hcount : t'.requestCount = t.requestCount)
    (hrequests : t'.requests = t.requests)
    (hother : ∀ s, s ≠ slot → t'.slots s = t.slots s) (hclaim : (t'.slots slot).claim = none)
    (hchunks : (t'.slots slot).chunkClaims = []) : t'.ClaimInv := by
  refine h.shrink hcount (fun id _ => by rw [hrequests]; exact .refl _) (fun s id hid => ?_)
    fun s => ?_
  · by_cases hs : s = slot
    · subst hs
      rw [Slot.claims, hclaim, hchunks] at hid
      cases hid
    · rw [hother s hs] at hid ⊢
      exact ⟨hid, h.filling s id hid, rfl⟩
  · by_cases hs : s = slot
    · subst hs
      exact Or.inl hclaim
    · rw [hother s hs]
      exact h.one_kind s

/-- An accepted request is claimed by the slot whose fill it is part of. -/
theorem accepted (h : u.ClaimInv) {r : Request} (hbusy : ¬ u.Busy r)
    (hfilling : (u.slots slot).state = .filling)
    (hthrough : (u.slots slot).filledThrough = r.binding)
    (hset : ∀ id ∈ (u.slots slot).claims, (u.requests id).SameSet r)
    (hplanned : cfg.Planned slot r.region r.read)
    (hcount : t'.requestCount = u.requestCount + 1)
    (hrequests : t'.requests = Function.update u.requests u.requestCount r)
    (hother : ∀ s, s ≠ slot → t'.slots s = u.slots s)
    (hstate : (t'.slots slot).state = .filling)
    (hthrough' : (t'.slots slot).filledThrough = (u.slots slot).filledThrough)
    (hclaims : ∀ id, id ∈ (t'.slots slot).claims ↔ id ∈ (u.slots slot).claims ∨ id = u.requestCount)
    (hone : (t'.slots slot).claim = none ∨ (t'.slots slot).chunkClaims = []) : t'.ClaimInv := by
  have hnew : t'.requests u.requestCount = r := by rw [hrequests, Function.update_self]
  have hold : ∀ id, id < u.requestCount → t'.requests id = u.requests id := fun id hid => by
    rw [hrequests, Function.update_of_ne (Nat.ne_of_lt hid)]
  -- Every claim is an old claim of the same slot, or the new one of `slot`.
  have hcases : ∀ s id, id ∈ (t'.slots s).claims →
      (id ∈ (u.slots s).claims ∧ id < u.requestCount) ∨ (s = slot ∧ id = u.requestCount) := by
    intro s id hid
    by_cases hs : s = slot
    · subst hs
      rcases (hclaims id).mp hid with hmem | rfl
      · exact Or.inl ⟨hmem, h.lt s id hmem⟩
      · exact Or.inr ⟨rfl, rfl⟩
    · rw [hother s hs] at hid
      exact Or.inl ⟨hid, h.lt s id hid⟩
  have hfills : ∀ s, s ≠ slot ∨ s = slot → (t'.slots s).filledThrough = (u.slots s).filledThrough := by
    rintro s (hs | rfl)
    · rw [hother s hs]
    · exact hthrough'
  have hapart : ∀ id, id < u.requestCount → (u.requests id).Live →
      (u.requests id).SameSet r → ¬ (u.requests id).Overlaps r := fun id hid hlive hsame hover =>
    hbusy ⟨id, hid, hlive, hsame, hover⟩
  refine ⟨fun s id hid => ?_, fun s id hid => ?_, fun s => ?_, fun s s' id hid hid' => ?_,
    fun s id hid => ?_, fun s id hid id' hid' => ?_, fun s id hid => ?_,
    fun id id' hid hid' hne hlive hlive' hsame => ?_⟩
  · rw [hcount]
    rcases hcases s id hid with ⟨-, hlt⟩ | ⟨-, rfl⟩
    · exact Nat.lt_succ_of_lt hlt
    · exact Nat.lt_succ_self _
  · by_cases hs : s = slot
    · rw [hs]
      exact hstate
    · rw [hother s hs] at hid ⊢
      exact h.filling s id hid
  · by_cases hs : s = slot
    · rw [hs]
      exact hone
    · rw [hother s hs]
      exact h.one_kind s
  · rcases hcases s id hid with ⟨hmem, hlt⟩ | ⟨hs, heq⟩ <;>
      rcases hcases s' id hid' with ⟨hmem', hlt'⟩ | ⟨hs', heq'⟩
    · exact h.own s s' id hmem hmem'
    · exact absurd heq' (Nat.ne_of_lt hlt)
    · exact absurd heq (Nat.ne_of_lt hlt')
    · rw [hs, hs']
  · rw [hfills s (ne_or_eq s slot)]
    rcases hcases s id hid with ⟨hmem, hlt⟩ | ⟨rfl, rfl⟩
    · rw [hold id hlt]
      exact h.binding s id hmem
    · rw [hnew, hthrough]
  · have hsym : ∀ a b : Request, a.SameSet b → b.SameSet a := fun a b hab =>
      ⟨hab.1.symm, hab.2.1.symm, hab.2.2.symm⟩
    rcases hcases s id hid with ⟨hmem, hlt⟩ | ⟨rfl, rfl⟩ <;>
      rcases hcases s id' hid' with ⟨hmem', hlt'⟩ | ⟨hslot, rfl⟩
    · rw [hold id hlt, hold id' hlt']
      exact h.same_set s id hmem id' hmem'
    · subst hslot
      rw [hold id hlt, hnew]
      exact hset id hmem
    · rw [hold id' hlt', hnew]
      exact hsym _ _ (hset id' hmem')
    · exact ⟨rfl, rfl, rfl⟩
  · rcases hcases s id hid with ⟨hmem, hlt⟩ | ⟨rfl, rfl⟩
    · rw [hold id hlt]
      exact h.planned s id hmem
    · rw [hnew]
      exact hplanned
  · rw [hcount] at hid hid'
    rcases Nat.lt_succ_iff_lt_or_eq.mp hid with hlt | rfl <;>
      rcases Nat.lt_succ_iff_lt_or_eq.mp hid' with hlt' | rfl
    · rw [hold id hlt] at hlive hsame ⊢
      rw [hold id' hlt'] at hlive' hsame ⊢
      exact h.apart id id' hlt hlt' hne hlive hlive' hsame
    · rw [hold id hlt, hnew] at *
      exact hapart id hlt hlive hsame
    · rw [hold id' hlt', hnew] at *
      intro hover
      refine hapart id' hlt' hlive' ⟨hsame.1.symm, hsame.2.1.symm, hsame.2.2.symm⟩ ?_
      unfold Request.Overlaps at hover ⊢
      rwa [max_comm, min_comm]
    · exact absurd rfl hne

end ClaimInv

/-! ## Live requests are claimed -/

namespace LiveInv

theorem create (h : cfg.Accepted) : (Table.create cfg h).LiveInv := fun id hid =>
  absurd hid (Nat.not_lt_zero id)

/-- No claim of a live request is given up. -/
theorem keep (h : t.LiveInv) (hcount : t'.requestCount = t.requestCount)
    (hlater : ∀ id < t.requestCount, (t.requests id).Later (t'.requests id))
    (hclaims : ∀ s, ∀ id ∈ (t.slots s).claims, (t'.requests id).Live →
      id ∈ (t'.slots s).claims) : t'.LiveInv := by
  intro id hid hlive
  rw [hcount] at hid
  have hlive' := hlive
  rw [(hlater id hid).eq_of_live hlive] at hlive'
  obtain ⟨s, hs⟩ := h id hid hlive'
  exact ⟨s, hclaims s id hs hlive⟩

/-- A change that leaves requests and claims alone. -/
theorem same (h : t.LiveInv) (hcount : t'.requestCount = t.requestCount)
    (hrequests : t'.requests = t.requests)
    (hslots : ∀ s, (t'.slots s).claim = (t.slots s).claim ∧
      (t'.slots s).chunkClaims = (t.slots s).chunkClaims) : t'.LiveInv := by
  refine h.keep hcount (fun id _ => by rw [hrequests]; exact .refl _) fun s id hid _ => ?_
  rw [Slot.claims, (hslots s).1, (hslots s).2]
  exact hid

/-- A rewrite of one slot that leaves its claims alone. -/
theorem update (h : t.LiveInv) (hcount : t'.requestCount = t.requestCount)
    (hrequests : t'.requests = t.requests) {s' : Slot cfg}
    (hslots : t'.slots = Function.update t.slots slot s')
    (hclaim : s'.claim = (t.slots slot).claim)
    (hchunks : s'.chunkClaims = (t.slots slot).chunkClaims) : t'.LiveInv := by
  refine h.same hcount hrequests fun s => ?_
  rw [hslots]
  by_cases hs : s = slot
  · subst hs
    rw [Function.update_self]
    exact ⟨hclaim, hchunks⟩
  · rw [Function.update_of_ne hs]
    exact ⟨rfl, rfl⟩

/-- A slot whose requests are all delivered is rewritten. -/
theorem clear (h : t.LiveInv) (hcount : t'.requestCount = t.requestCount)
    (hrequests : t'.requests = t.requests)
    (hother : ∀ s, s ≠ slot → t'.slots s = t.slots s)
    (hdone : ∀ id ∈ (t.slots slot).claims, ¬ (t.requests id).Live) : t'.LiveInv := by
  refine h.keep hcount (fun id _ => by rw [hrequests]; exact .refl _) fun s id hid hlive => ?_
  rw [hrequests] at hlive
  by_cases hs : s = slot
  · subst hs
    exact absurd hlive (hdone id hid)
  · rw [hother s hs]
    exact hid

/-- An accepted request is claimed at once. -/
theorem accepted (h : u.LiveInv) {r : Request} (hcount : t'.requestCount = u.requestCount + 1)
    (hrequests : t'.requests = Function.update u.requests u.requestCount r)
    (hother : ∀ s, s ≠ slot → t'.slots s = u.slots s)
    (hclaims : ∀ id, id ∈ (t'.slots slot).claims ↔
      id ∈ (u.slots slot).claims ∨ id = u.requestCount) : t'.LiveInv := by
  intro id hid hlive
  rw [hcount] at hid
  rcases Nat.lt_succ_iff_lt_or_eq.mp hid with hlt | heq
  · rw [hrequests, Function.update_of_ne (Nat.ne_of_lt hlt)] at hlive
    obtain ⟨s, hs⟩ := h id hlt hlive
    refine ⟨s, ?_⟩
    by_cases hslot : s = slot
    · rw [hslot] at hs ⊢
      exact (hclaims id).mpr (Or.inl hs)
    · rw [hother s hslot]
      exact hs
  · exact ⟨slot, (hclaims id).mpr (Or.inr heq)⟩

end LiveInv

/-! ## Submitting -/

theorem Deliveries.grows (h : Deliveries t t') : Grows t t' := by
  cases h with
  | mk requests h => exact ⟨le_rfl, fun id _ => h id, le_rfl⟩

theorem ClaimInv.deliveries (h : t.ClaimInv) (hd : Deliveries t t') : t'.ClaimInv := by
  cases hd with
  | mk requests hlater =>
      refine h.shrink rfl (fun id _ => hlater id) (fun s id hid => ?_) h.one_kind
      exact ⟨hid, h.filling s id hid, rfl⟩

theorem LiveInv.deliveries (h : t.LiveInv) (hd : Deliveries t t') : t'.LiveInv := by
  cases hd with
  | mk requests hlater => exact h.keep rfl (fun id _ => hlater id) fun s id hid _ => hid

/-- The slot is being filled through the current binding, and its claims so far are on
requests of the transfer set of this shard and region. -/
structure Gathering (t : Table cfg) (slot : cfg.SlotId) (shard : ℕ) (region : Region) : Prop where
  inv : t.ClaimInv
  filling : (t.slots slot).state = .filling
  through : (t.slots slot).filledThrough = t.currentBinding
  set : ∀ id ∈ (t.slots slot).claims, (t.requests id).binding = t.currentBinding ∧
    (t.requests id).shard = shard ∧ (t.requests id).region = region

namespace Gathering

variable {region : Region}

theorem deliveries (h : t.Gathering slot shard region) (hd : Deliveries t t') :
    t'.Gathering slot shard region := by
  have hinv := h.inv.deliveries hd
  cases hd with
  | mk requests hlater =>
      refine ⟨hinv, h.filling, h.through, fun id hid => ?_⟩
      obtain ⟨hb, hs, hr⟩ := (hlater id).sameSet
      obtain ⟨hb', hs', hr'⟩ := h.set id hid
      exact ⟨hb.trans hb', hs.trans hs', hr.trans hr'⟩

/-- One more request is accepted and claimed. -/
theorem accepted (h : u.Gathering slot shard region) {read : Read}
    (hplanned : cfg.Planned slot region read)
    (hbusy : ¬ u.Busy ⟨u.currentBinding, shard, region, read, none⟩) (s' : Slot cfg)
    (hstate : s'.state = (u.slots slot).state)
    (hthrough : s'.filledThrough = (u.slots slot).filledThrough)
    (hclaims : ∀ id, id ∈ s'.claims ↔ id ∈ (u.slots slot).claims ∨ id = u.requestCount)
    (hone : s'.claim = none ∨ s'.chunkClaims = []) :
    Gathering ((u.accept ⟨u.currentBinding, shard, region, read, none⟩).modify slot fun _ => s')
      slot shard region := by
  have hself : Function.update u.slots slot s' slot = s' := Function.update_self ..
  refine ⟨h.inv.accepted hbusy h.filling h.through (fun id hid => h.set id hid) hplanned rfl rfl
    (fun s hs => Function.update_of_ne hs _ _) ?_ ?_ (fun id => ?_) ?_, ?_, ?_, fun id hid => ?_⟩
  · exact (congrArg Slot.state hself).trans (hstate.trans h.filling)
  · exact (congrArg Slot.filledThrough hself).trans hthrough
  · show id ∈ (Function.update u.slots slot s' slot).claims ↔ _
    rw [hself, hclaims id]
  · show (Function.update u.slots slot s' slot).claim = none ∨
      (Function.update u.slots slot s' slot).chunkClaims = []
    rw [hself]
    exact hone
  · exact (congrArg Slot.state hself).trans (hstate.trans h.filling)
  · exact (congrArg Slot.filledThrough hself).trans (hthrough.trans h.through)
  · have hid : id ∈ (Function.update u.slots slot s' slot).claims := hid
    show (Function.update u.requests u.requestCount _ id).binding = _ ∧
      (Function.update u.requests u.requestCount _ id).shard = _ ∧
      (Function.update u.requests u.requestCount _ id).region = _
    rw [hself, hclaims id] at hid
    rcases hid with hid | rfl
    · rw [Function.update_of_ne (Nat.ne_of_lt (h.inv.lt slot id hid))]
      exact h.set id hid
    · rw [Function.update_self]
      exact ⟨rfl, rfl, rfl⟩

end Gathering

/-- How submitting a slot's reads ends: the claims are in order, a refusal leaves the
slot without any, and live requests stay claimed if no chunk was lost. -/
structure Gathered (t t' : Table cfg) (slot : cfg.SlotId) (accepted : Prop) : Prop where
  inv : t'.ClaimInv
  refused : ¬ accepted → (t'.slots slot).claims = []
  live : t.LiveInv → t'.lostChunks = t.lostChunks → t'.LiveInv

theorem submitChunks_gathered (answers : Answers) (slot : cfg.SlotId) (shard : ℕ)
    (reads : List Read) (t : Table cfg) (h : t.Gathering slot shard .output)
    (hplanned : ∀ read ∈ reads, cfg.Planned slot .output read)
    (hclaim : (t.slots slot).claim = none) :
    Gathered t (submitChunks answers slot shard reads t).2 slot
      ((submitChunks answers slot shard reads t).1 = .ok) := by
  induction reads generalizing t with
  | nil => exact ⟨h.inv, fun hne => absurd rfl hne, fun hlive _ => hlive⟩
  | cons read rest ih =>
      obtain ⟨u, hu, hsubmit⟩ :=
        t.submit_cases answers ⟨t.currentBinding, shard, .output, read, none⟩
      obtain ⟨hslots, hcount, hcurrent, hlost⟩ := hu.fields
      have hgather := h.deliveries hu
      rw [← hslots] at hclaim
      rw [← hcurrent] at hsubmit
      unfold submitChunks
      rcases hsubmit with ⟨hsubmit, hbusy⟩ | ⟨status, hne, hsubmit⟩ <;> rw [← hcurrent, hsubmit]
      · let s' := { u.slots slot with
          chunkClaims := (u.slots slot).chunkClaims ++ [u.requestCount] }
        have hclaims : ∀ id, id ∈ s'.claims ↔
            id ∈ (u.slots slot).claims ∨ id = u.requestCount := by
          intro id
          simp [s', Slot.claims, or_assoc]
        have hself : Function.update u.slots slot s' slot = s' := Function.update_self ..
        rw [← hcount]
        obtain ⟨hinv, hrefused, hlives⟩ := ih _
          (hgather.accepted (hplanned read List.mem_cons_self) hbusy s' rfl rfl hclaims
            (Or.inl hclaim))
          (fun read hread => hplanned read (List.mem_cons_of_mem _ hread))
          ((congrArg Slot.claim hself).trans hclaim)
        refine ⟨hinv, hrefused, fun hlive hkept => hlives ?_ (hkept.trans hlost.symm)⟩
        refine (hlive.deliveries hu).accepted rfl rfl (fun s hs => Function.update_of_ne hs _ _)
          fun id => ?_
        show id ∈ (Function.update u.slots slot s' slot).claims ↔ _
        rw [hself, hclaims id]
      · -- A refused chunk: the claims gathered so far are dropped.
        split
        · rename_i hok
          exact absurd (congrArg Prod.fst hok) hne
        · rename_i status' t' hne' heq
          obtain ⟨rfl, rfl⟩ := Prod.mk.inj heq
          let s' := { u.slots slot with chunkClaims := [] }
          have hself : Function.update u.slots slot s' slot = s' := Function.update_self ..
          refine ⟨hgather.inv.clear rfl rfl (fun s hs => Function.update_of_ne hs _ _)
            ((congrArg Slot.claim hself).trans hclaim) (congrArg Slot.chunkClaims hself),
            fun _ => ?_, fun hlive hkept => ?_⟩
          · show (Function.update u.slots slot s' slot).claims = []
            rw [hself, Slot.claims, show s'.claim = none from hclaim]
            rfl
          · refine (hlive.deliveries hu).clear rfl rfl (fun s hs => Function.update_of_ne hs _ _)
              fun id hid hlives => ?_
            have hkept : (if ∃ id ∈ (u.slots slot).chunkClaims, (u.requests id).Live then
                u.lostChunks + 1 else u.lostChunks) = t.lostChunks := hkept
            rw [Slot.claims, hclaim] at hid
            rw [if_pos ⟨id, hid, hlives⟩, hlost] at hkept
            exact absurd hkept (Nat.succ_ne_self _)

/-- A single read, accepted or refused. -/
theorem submit_gathered {region : Region} (answers : Answers) (read : Read)
    (h : t.Gathering slot shard region) (hplanned : cfg.Planned slot region read)
    (hnone : (t.slots slot).claims = [])
    (scratch : Slot cfg → Option cfg.ScratchId) :
    (∃ u, t.submit answers ⟨t.currentBinding, shard, region, read, none⟩ = (.ok, u) ∧
        Gathered t (u.modify slot fun s =>
          { s with scratchSlot := scratch s, claim := some t.requestCount }) slot True) ∨
      ∃ status u, status ≠ .ok ∧
        t.submit answers ⟨t.currentBinding, shard, region, read, none⟩ = (status, u) ∧
        Gathered t u slot False := by
  obtain ⟨u, hu, hsubmit⟩ := t.submit_cases answers ⟨t.currentBinding, shard, region, read, none⟩
  obtain ⟨hslots, hcount, hcurrent, hlost⟩ := hu.fields
  have hgather := h.deliveries hu
  rw [← hslots] at hnone
  rw [← hcurrent] at hsubmit ⊢
  rcases hsubmit with ⟨hsubmit, hbusy⟩ | ⟨status, hne, hsubmit⟩
  · left
    refine ⟨_, hsubmit, ?_⟩
    obtain ⟨hclaim, hchunks⟩ := List.append_eq_nil_iff.mp hnone
    let s' := { u.slots slot with
      scratchSlot := scratch (u.slots slot), claim := some u.requestCount }
    have hclaims : ∀ id, id ∈ s'.claims ↔ id ∈ (u.slots slot).claims ∨ id = u.requestCount := by
      intro id
      rw [hnone, Slot.claims, show s'.chunkClaims = [] from hchunks]
      simp [s']
    have hself : Function.update u.slots slot s' slot = s' := Function.update_self ..
    rw [← hcount]
    refine ⟨(hgather.accepted hplanned hbusy s' rfl rfl hclaims (Or.inr hchunks)).inv,
      fun hne => absurd trivial hne, fun hlive _ => ?_⟩
    refine (hlive.deliveries hu).accepted rfl rfl (fun s hs => Function.update_of_ne hs _ _)
      fun id => ?_
    show id ∈ (Function.update u.slots slot s' slot).claims ↔ _
    rw [hself, hclaims id]
  · right
    refine ⟨status, _, hne, hsubmit, hgather.inv.keep rfl rfl fun _ => ⟨rfl, rfl, fun _ => ⟨rfl, rfl⟩⟩,
      fun _ => hnone, fun hlive _ => ?_⟩
    exact (hlive.deliveries hu).same rfl rfl fun _ => ⟨rfl, rfl⟩

theorem Gathering.setScratch {region : Region} (h : t.Gathering slot shard region)
    (scratch : cfg.ScratchId) (used : Bool) : (t.setScratch scratch used).Gathering slot shard region :=
  ⟨h.inv.keep rfl rfl fun _ => ⟨rfl, rfl, fun _ => ⟨rfl, rfl⟩⟩, h.filling, h.through, h.set⟩

/-- What is said of a submission with one verdict holds with an equivalent one. -/
theorem Gathered.congr {p q : Prop} (h : Gathered t t' slot p) (hpq : p ↔ q) :
    Gathered t t' slot q :=
  ⟨h.inv, fun hq => h.refused fun hp => hq (hpq.mp hp), h.live⟩

/-- Submitting the reads of a fill that has just begun. -/
theorem submitFill_gathered (answers : Answers) (slot : cfg.SlotId) (location : RowLocation)
    (source : ShardSource)
    (hlocated : cfg.Located location.range source)
    (hinv : t.ClaimInv) (hfilling : (t.slots slot).state = .filling)
    (hthrough : (t.slots slot).filledThrough = t.currentBinding)
    (hnone : (t.slots slot).claims = []) :
    Gathered t (t.submitFill answers slot location source).2 slot
      ((t.submitFill answers slot location source).1 = .ok) := by
  have hgather : ∀ shard region, t.Gathering slot shard region := fun shard region =>
    ⟨hinv, hfilling, hthrough, fun id hid => by rw [hnone] at hid; cases hid⟩
  have hclaim := (List.append_eq_nil_iff.mp hnone).1
  unfold submitFill
  dsimp only
  split
  · rename_i hchunked
    refine (submitChunks_gathered answers slot _ _ t (hgather _ _) (fun read hread => ?_) ?_).congr ?_
    · refine ⟨location.range, source, hlocated, ?_, ?_⟩
      · simpa using (Bool.and_eq_true_iff.mp hchunked).1
      · rwa [TableConfig.outputReads, if_pos hchunked]
    · cases h : (t.slots slot).claim with
      | none => rfl
      | some id => rw [h] at hclaim; cases hclaim
    · exact fromMempage_eq_ok_iff.symm
  · rename_i hchunked
    split
    · rename_i hconverting
      have hplanned : cfg.Planned slot .output ⟨(fillWindow cfg.fillAlignment source.bytes
          location.range).fill, cfg.slotBase slot⟩ := by
        refine ⟨location.range, source, hlocated, by simpa using hconverting, ?_⟩
        rw [TableConfig.outputReads, if_neg hchunked]
        exact List.mem_singleton_self _
      rcases submit_gathered answers ⟨(fillWindow cfg.fillAlignment source.bytes
        location.range).fill, cfg.slotBase slot⟩ (hgather location.shard.toNat .output) hplanned
        hnone (fun s => s.scratchSlot) with ⟨u, hsubmit, h⟩ | ⟨status, u, hne, hsubmit, h⟩ <;>
        rw [hsubmit]
      · exact h.congr ⟨fun _ => rfl, fun _ => trivial⟩
      · split
        · rename_i hok
          exact absurd (congrArg Prod.fst hok) hne
        · rename_i status' u' hne' heq
          obtain ⟨rfl, rfl⟩ := Prod.mk.inj heq
          exact h.congr ⟨False.elim, fun hok => hne (fromMempage_eq_ok_iff.mp hok)⟩
    · split
      · exact ⟨hinv, fun _ => hnone, fun hlive _ => hlive⟩
      · rename_i scratch hscratch
        rcases submit_gathered answers ⟨location.range, cfg.scratchBase scratch⟩
          ((hgather location.shard.toNat .scratch).setScratch scratch true)
          ⟨location.range, source, hlocated, scratch, rfl⟩ hnone
          (fun _ => some scratch) with ⟨u, hsubmit, h⟩ | ⟨status, u, hne, hsubmit, h⟩
        · have hsubmit : (t.setScratch scratch true).submit answers ⟨t.currentBinding, _, .scratch,
            ⟨location.range, cfg.scratchBase scratch⟩, none⟩ = _ := hsubmit
          rw [hsubmit]
          exact ⟨h.inv, fun hne => absurd rfl hne, fun hlive hkept =>
            h.live (hlive.same rfl rfl fun _ => ⟨rfl, rfl⟩) hkept⟩
        · have hsubmit : (t.setScratch scratch true).submit answers ⟨t.currentBinding, _, .scratch,
            ⟨location.range, cfg.scratchBase scratch⟩, none⟩ = _ := hsubmit
          rw [hsubmit]
          split
          · rename_i hok
            exact absurd (congrArg Prod.fst hok) hne
          · rename_i status' u' hne' heq
            obtain ⟨rfl, rfl⟩ := Prod.mk.inj heq
            refine ⟨h.inv.keep rfl rfl fun _ => ⟨rfl, rfl, fun _ => ⟨rfl, rfl⟩⟩,
              fun _ => h.refused id, fun hlive hkept => ?_⟩
            exact (h.live (hlive.same rfl rfl fun _ => ⟨rfl, rfl⟩) hkept).same rfl rfl
              fun _ => ⟨rfl, rfl⟩

/-! ## The operations -/

/-- Starting a fill keeps claims in order, and live requests claimed unless a chunk was
lost. -/
theorem startFillLocked_claims (h : t.ClaimInv) (answers : Answers) (row : UInt64)
    (hfree : (t.slots slot).state = .free) :
    (t.startFillLocked answers slot row).2.ClaimInv ∧
      (t.LiveInv → (t.startFillLocked answers slot row).2.lostChunks = t.lostChunks →
        (t.startFillLocked answers slot row).2.LiveInv) := by
  have hslot : (t.slots slot).state ≠ .filling := by
    rw [hfree]
    decide
  have hnone := h.claims_eq_nil hslot
  have hself : (t.beginAdmission slot row).slots slot = _ := Function.update_self ..
  have hbegin : (t.beginAdmission slot row).ClaimInv :=
    h.update rfl rfl rfl rfl rfl fun hne => absurd hnone hne
  have hbeginLive : t.LiveInv → (t.beginAdmission slot row).LiveInv := fun hlive =>
    hlive.update rfl rfl rfl rfl rfl
  have hbeginNone : ((t.beginAdmission slot row).slots slot).claims = [] := by
    rw [hself]
    exact hnone
  unfold startFillLocked
  dsimp only
  split
  · exact ⟨hbegin.update rfl rfl rfl rfl rfl fun hne => absurd hbeginNone hne,
      fun hlive _ => (hbeginLive hlive).update rfl rfl rfl rfl rfl⟩
  · rename_i location source hlocate
    have hgathered := submitFill_gathered answers slot location source
      (cfg.locate_eq_ok hlocate).2.2 hbegin
      (by rw [hself]) (by rw [hself]; rfl) hbeginNone
    split
    · rename_i u hsubmit
      rw [hsubmit] at hgathered
      exact ⟨hgathered.inv.update rfl rfl rfl rfl rfl fun _ => ⟨rfl, rfl⟩,
        fun hlive hkept => (hgathered.live (hbeginLive hlive) hkept).update rfl rfl rfl rfl rfl⟩
    · rename_i status u hne hsubmit
      rw [hsubmit] at hgathered
      have hrefused := hgathered.refused hne
      exact ⟨hgathered.inv.update rfl rfl rfl rfl rfl fun hne => absurd hrefused hne,
        fun hlive hkept => (hgathered.live (hbeginLive hlive) hkept).update rfl rfl rfl rfl rfl⟩

theorem ClaimInv.bookkeeping (h : t.ClaimInv) (hb : t.Bookkeeping t') : t'.ClaimInv := by
  cases hb with
  | mk slots tickets waiters hand held counters notifications hslots =>
      refine h.keep rfl rfl fun s => ?_
      obtain ⟨r, hs⟩ := hslots s
      dsimp only
      rw [hs]
      exact ⟨rfl, rfl, fun _ => ⟨rfl, rfl⟩⟩

theorem LiveInv.bookkeeping (h : t.LiveInv) (hb : t.Bookkeeping t') : t'.LiveInv := by
  cases hb with
  | mk slots tickets waiters hand held counters notifications hslots =>
      refine h.same rfl rfl fun s => ?_
      obtain ⟨r, hs⟩ := hslots s
      dsimp only
      rw [hs]
      exact ⟨rfl, rfl⟩

theorem ClaimInv.makeFree (h : t.ClaimInv) (slot : cfg.SlotId) : (t.makeFree slot).ClaimInv := by
  have hself : (t.makeFree slot).slots slot = _ := Function.update_self ..
  refine h.clear rfl rfl (fun s hs => Function.update_of_ne hs _ _) ?_ ?_ <;> rw [hself]

/-- Edits keep claims in order, and live requests claimed unless a chunk was lost. -/
theorem Edit.claims (he : Edit t t') (h : t.ClaimInv) :
    t'.ClaimInv ∧ (t.LiveInv → t'.lostChunks = t.lostChunks → t'.LiveInv) := by
  cases he with
  | quiet he =>
      cases he with
      | sweep he =>
          cases he with
          | bookkeeping hb => exact ⟨h.bookkeeping hb, fun hlive _ => hlive.bookkeeping hb⟩
          | freed slot hpins hstate =>
              have hnone : (t.slots slot).claims = [] := by
                apply h.claims_eq_nil
                rcases hstate with hs | hs <;> rw [hs] <;> decide
              refine ⟨h.makeFree slot, fun hlive _ => ?_⟩
              refine hlive.clear rfl rfl (fun s hs => Function.update_of_ne hs _ _) fun id hid => ?_
              rw [hnone] at hid
              cases hid
      | deliveries hd => exact ⟨h.deliveries hd, fun hlive _ => hlive.deliveries hd⟩
      | started answers slot row hfree habsent =>
          exact startFillLocked_claims h answers row hfree
  | pinned slot =>
      exact ⟨h.update rfl rfl rfl rfl rfl fun _ => ⟨rfl, rfl⟩,
        fun hlive _ => hlive.update rfl rfl rfl rfl rfl⟩
  | unpinned slot =>
      exact ⟨h.update rfl rfl rfl rfl rfl fun _ => ⟨rfl, rfl⟩,
        fun hlive _ => hlive.update rfl rfl rfl rfl rfl⟩
  | dropped _ =>
      exact ⟨h.keep rfl rfl fun _ => ⟨rfl, rfl, fun _ => ⟨rfl, rfl⟩⟩,
        fun hlive _ => hlive.same rfl rfl fun _ => ⟨rfl, rfl⟩⟩
  | installed _ _ _ _ =>
      exact ⟨h.keep rfl rfl fun _ => ⟨rfl, rfl, fun _ => ⟨rfl, rfl⟩⟩,
        fun hlive _ => hlive.same rfl rfl fun _ => ⟨rfl, rfl⟩⟩

theorem Edits.claims (he : Edits t t') (h : t.ClaimInv) :
    t'.ClaimInv ∧ (t.LiveInv → t'.lostChunks = t.lostChunks → t'.LiveInv) := by
  induction he with
  | refl => exact ⟨h, fun hlive _ => hlive⟩
  | tail hfirst hlast ih =>
      obtain ⟨hinv, hlives⟩ := ih
      obtain ⟨hinv', hlives'⟩ := hlast.claims hinv
      refine ⟨hinv', fun hlive hkept => ?_⟩
      -- The loss count only grows, so it has not moved in either part.
      have hmid := le_antisymm (hkept ▸ hlast.grows.lost) (Edits.grows hfirst).lost
      exact hlives' (hlives hlive hmid) (hkept.trans hmid.symm)

theorem ClaimInv.takeOver (h : t.ClaimInv) (slot : cfg.SlotId) : (t.takeOver slot).ClaimInv :=
  h.update rfl rfl rfl rfl rfl fun _ => ⟨rfl, rfl⟩

theorem ClaimInv.relinquish (h : t.ClaimInv) (slot : cfg.SlotId) : (t.relinquish slot).ClaimInv :=
  h.update rfl rfl rfl rfl rfl fun _ => ⟨rfl, rfl⟩

theorem ClaimInv.publish (h : t.ClaimInv) (slot : cfg.SlotId) (result : Status) :
    (t.publish slot result).ClaimInv := by
  have hself : (t.publish slot result).slots slot = _ := Function.update_self ..
  refine h.clear rfl rfl (fun s hs => Function.update_of_ne hs _ _) ?_ ?_ <;> rw [hself]

/-- Publishing a slot whose requests are all delivered gives up no live request. -/
theorem LiveInv.publish (h : t.LiveInv) {result : Status}
    (hdone : ∀ id ∈ (t.slots slot).claims, ¬ (t.requests id).Live) :
    (t.publish slot result).LiveInv :=
  h.clear rfl rfl (fun _ hs => Function.update_of_ne hs _ _) hdone

end Table

end TieredCache
