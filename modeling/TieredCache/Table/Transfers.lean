/-
# The bytes of fills

What is in the caller's storage while the table runs.  A request writes into its destination,
in any pieces and at any time while it is live, and has copied its source when it is delivered
in full.  Over one edit every fill gains only what is its own, and no row that is shown is
written to.
-/

import TieredCache.Table.Ownership

namespace TieredCache

open Math Math.Memory

variable {cfg : TableConfig}

/-- What every source holds; sources are immutable. -/
abbrev Contents := ℕ → ℕ → UInt8

/-- What the caller's output and scratch storage hold. -/
abbrev Buffers := Region → ℕ → UInt8

/-- What the codec makes of an encoded row; an identity table leaves it as it is. -/
def TableConfig.Encodes (cfg : TableConfig) (order : ByteOrder) (source output : List UInt8) :
    Prop :=
  match cfg.activeCodec order with
  | none => output = source
  | some codec => codec source = some output

namespace Table

variable {t t' u : Table cfg} {s : cfg.SlotId} {id id' : RequestId} {region : Region} {i : ℕ}
  {contents : Contents} {order : ByteOrder} {m m' n n' : Buffers} {done : cfg.SlotId → Prop}

/-- The request may write between the two states: it is live before, or accepted meanwhile. -/
def Writing (t t' : Table cfg) (id : RequestId) : Prop :=
  id < t'.requestCount ∧ (id < t.requestCount → (t.requests id).Live)

/-- The shard a request reads. -/
def sourceOf (t : Table cfg) (id : RequestId) : Option ShardSource :=
  (t.origin (t.requests id).binding).1[(t.requests id).shard]?

/-- What the requests do to the storage between two states of the table. -/
structure Transfers (contents : Contents) (t t' : Table cfg) (m m' : Buffers) : Prop where
  /-- A byte that changes is the target of a request that may write. -/
  writes : ∀ region i, m' region i ≠ m region i →
    ∃ id, Writing t t' id ∧ (t'.requests id).region = region ∧ (t'.requests id).Targets i
  /-- A request delivered in full has copied its source, except for bytes that another request
  may have written as well. -/
  copies : ∀ id source, Writing t t' id → (t'.requests id).outcome = some .ok →
    t'.sourceOf id = some source → ∀ k < (t'.requests id).read.source.length.toNat,
    (∀ id', Writing t t' id' → (t'.requests id').region = (t'.requests id).region →
      (t'.requests id').Targets ((t'.requests id).read.destination.toNat + k) → id' = id) →
    m' (t'.requests id).region ((t'.requests id).read.destination.toNat + k) =
      contents source.source ((t'.requests id).read.source.offset.toNat + k)

/-- The storage over the edits of a section. -/
inductive Written (contents : Contents) (t : Table cfg) (m : Buffers) : Table cfg → Buffers → Prop
  | refl : Written contents t m t m
  | tail {u u' : Table cfg} {n n' : Buffers} (h : Written contents t m u n) (hedit : Edit u u')
      (htransfers : Transfers contents u u' n n') : Written contents t m u' n'

/-- The bytes the slot exposes are those of the row it was admitted for, as its binding
locates it. -/
def Shows (contents : Contents) (order : ByteOrder) (t : Table cfg) (m : Buffers)
    (s : cfg.SlotId) : Prop :=
  ∃ location source, cfg.locate (t.origin (t.slots s).filledThrough).1
      (t.origin (t.slots s).filledThrough).2 (t.slots s).rowIndex = .ok (location, source) ∧
    cfg.Encodes order (location.range.of (contents source.source))
      ((t.publishedSpan s).of (m .output))

/-- The request has copied its source. -/
def Landed (contents : Contents) (t : Table cfg) (m : Buffers) (id : RequestId) : Prop :=
  ∀ source, t.sourceOf id = some source →
    (t.requests id).read.Copied (contents source.source) (m (t.requests id).region)

/-- The storage holds what has been read.  Where a codec has run, its slot is `done`. -/
structure BytesInv (contents : Contents) (order : ByteOrder) (t : Table cfg) (m : Buffers)
    (done : cfg.SlotId → Prop) : Prop where
  landed : ∀ s, ∀ id ∈ (t.slots s).claims, (t.requests id).outcome = some .ok →
    Landed contents t m id
  shown : ∀ s, (t.slots s).state = .ready ∨ done s → Shows contents order t m s
  done : ∀ s, done s → (t.slots s).state = .filling ∧ cfg.converting = true

/-- What is known of every table of a run that gives up no live request, over shards below
`2 ^ 63`. -/
structure Sound (t : Table cfg) : Prop where
  claims : t.ClaimInv
  live : t.LiveInv
  books : t.BookInv
  past : t.PastBindings
  rows : t.RowsInv
  scratch : t.ScratchInv
  reads : t.ScratchReads
  shards : t.ShardsBelow

/-! ## Claims and spans -/

namespace Sound

theorem edit (h : t.Sound) (he : Edit t t') (hkept : t'.lostChunks = t.lostChunks)
    (hshards : t'.ShardsBelow) : t'.Sound where
  claims := (he.claims h.claims).1
  live := (he.claims h.claims).2 h.live hkept
  books := h.books.edit he
  past := h.past.edit h.books.current_lt he
  rows := h.rows.edit h.claims h.books h.past he
  scratch := h.scratch.edit he
  reads := h.reads.edit h.claims he
  shards := hshards

/-- Two claims of one slot write no common byte. -/
theorem claims_apart (h : t.Sound) (hchecked : cfg.Checked) (hsizes : cfg.SizesBelow)
    (hid : id ∈ (t.slots s).claims) (hid' : id' ∈ (t.slots s).claims)
    (htargets : (t.requests id).Targets i) (htargets' : (t.requests id').Targets i) : id = id' := by
  have hfilling := h.claims.filling s id hid
  have hexact := h.rows.fillsExact hchecked hsizes h.books h.past h.shards .little
  cases hconv : cfg.converting with
  | true =>
      obtain ⟨only, scratch, location, source, hrequests, -⟩ :=
        hexact.converting hconv s (Or.inl hfilling)
      have hclaims := hrequests.claimed hfilling
      rw [← hclaims, List.mem_singleton] at hid hid'
      exact hid.trans hid'.symm
  | false =>
      obtain ⟨ids, location, source, hrequests, hreads, -⟩ :=
        hexact.identity hconv s (Or.inl hfilling)
      rw [← hrequests.claimed hfilling] at hid hid'
      have hdisjoint := List.pairwise_map.mp hreads.disjoint
      have hapart : ids.Pairwise fun a b => ∀ j, (t.requests a).Targets j →
          (t.requests b).Targets j → a = b := by
        refine hdisjoint.imp fun {a b} hbefore j ha hb => absurd hbefore ?_
        exact Nat.not_le_of_lt (lt_of_le_of_lt hb.1 ha.2)
      have hsymm : Std.Symm fun a b => ∀ j, (t.requests a).Targets j →
          (t.requests b).Targets j → a = b := ⟨fun a b hab j hb ha => (hab j ha hb).symm⟩
      exact hapart.forall_of_forall (fun _ _ _ _ _ => rfl) hid hid' i htargets htargets'

/-- The span a slot exposes is in the slot. -/
theorem span_inSlot (h : t.Sound) (hchecked : cfg.Checked) (hsizes : cfg.SizesBelow)
    (hs : (t.slots s).Occupied) {k : ℕ} (hk : k < (t.publishedSpan s).length.toNat) :
    cfg.InSlot s ((t.publishedSpan s).offset.toNat + k) := by
  obtain ⟨ids, scratch, location, source, hfrom, -⟩ := h.rows s hs
  obtain ⟨-, hsource, hrow⟩ := cfg.locate_eq_ok hfrom.located
  have hbytes := hfrom.bytes
  unfold publishedSpan at hk ⊢
  rw [hfrom.offset]
  unfold TableConfig.InSlot
  rw [Nat.add_mul, Nat.one_mul]
  cases hconv : cfg.converting with
  | true =>
      rw [if_pos hconv] at hbytes
      rw [hbytes] at hk
      rw [hchecked.window_converting hconv]
      dsimp only at hk ⊢
      rw [UInt64.add_zero, hchecked.toNat_slotBase]
      omega
  | false =>
      rw [if_neg (by rw [hconv]; decide)] at hbytes
      rw [hbytes] at hk
      have hbelow : source.bytes.toNat < 2 ^ 63 :=
        h.shards _ (lt_of_le_of_lt (h.past s) h.books.current_lt) source
          (List.mem_of_getElem? hsource)
      have hreads : cfg.ExactReads s _ _ _ := hsizes.exactReads hchecked hconv hrow hbelow
      have hfits := hreads.fits
      have hhead := hreads.window.head
      have hcovers := hreads.window.covers
      unfold ByteRange.stop at hcovers
      rw [hreads.toNat_rowBase hchecked]
      dsimp only at hk ⊢
      omega

/-- A claim writes into the room of its slot. -/
theorem room (h : t.Sound) (hchecked : cfg.Checked) (hsizes : cfg.SizesBelow)
    (hid : id ∈ (t.slots s).claims) (htargets : (t.requests id).Targets i) :
    t.Room s (t.requests id).region i :=
  claim_in_room hchecked (hsizes.exact hchecked) h.claims h.reads h.rows hid htargets

/-- The claims of a converting table are on scratch rows. -/
theorem claims_scratch (h : t.Sound) (hconv : cfg.converting = true)
    (hid : id ∈ (t.slots s).claims) : (t.requests id).region = .scratch := by
  have hfilling := h.claims.filling s id hid
  obtain ⟨ids, scratch, location, source, hfrom, hclaims, -⟩ := h.rows s (Or.inl hfilling)
  rw [← hclaims hfilling] at hid
  have hregion := (hfrom.submitted.set id hid).2.2.2
  rwa [TableConfig.fillRegion, if_pos hconv] at hregion

end Sound

/-! ## Owners -/

/-- The slot a request writes for: what it writes is in the slot's room, the slot has not been
published, and it claims the request while it fills. -/
structure OwnedBy (t : Table cfg) (id : RequestId) (s : cfg.SlotId) : Prop where
  room : ∀ i, (t.requests id).Targets i → t.Room s (t.requests id).region i
  not_ready : (t.slots s).state ≠ .ready
  claimed : (t.slots s).state = .filling → id ∈ (t.slots s).claims

/-- Only an admission makes requests. -/
theorem Edit.new (he : Edit t t') (hid : New t t' id) :
    ∃ answers slot row, (t.slots slot).state = .free ∧
      t' = (t.startFillLocked answers slot row).2 := by
  have hnone : t'.requestCount ≠ t.requestCount := by
    intro hcount
    have hlt := hid.2
    rw [hcount] at hlt
    exact absurd hid.1 (Nat.not_le_of_lt hlt)
  cases he with
  | quiet he =>
      cases he with
      | sweep he =>
          cases he with
          | bookkeeping hb =>
              cases hb
              exact absurd rfl hnone
          | freed slot hpins hstate => exact absurd rfl hnone
      | deliveries hd => exact absurd hd.fields.2.1 hnone
      | started answers slot row hfree habsent => exact ⟨answers, slot, row, hfree, rfl⟩
  | pinned slot => exact absurd rfl hnone
  | unpinned slot => exact absurd rfl hnone
  | dropped _ => exact absurd rfl hnone
  | installed _ _ _ _ => exact absurd rfl hnone

/-- Every request that may write during an edit has an owner. -/
theorem Edit.owned (he : Edit t t') (h : t.Sound) (h' : t'.Sound) (hchecked : cfg.Checked)
    (hsizes : cfg.SizesBelow) (hid : Writing t t' id) : ∃ s, t'.OwnedBy id s := by
  by_cases hlt : id < t.requestCount
  · -- A request that was live before is claimed, and stays so.
    obtain ⟨s, hs⟩ := h.live id hlt (hid.2 hlt)
    have hfilling := h.claims.filling s id hs
    obtain ⟨r, p, hr⟩ := he.sameFill hfilling
    have hclaims : id ∈ (t'.slots s).claims := by
      rw [hr]
      exact hs
    refine ⟨s, fun i hi => h'.room hchecked hsizes hclaims hi, ?_, fun _ => hclaims⟩
    rw [hr]
    show (t.slots s).state ≠ .ready
    rw [hfilling]
    decide
  · have hnew : New t t' id := ⟨Nat.le_of_not_lt hlt, hid.1⟩
    obtain ⟨answers, slot, row, hfree, rfl⟩ := he.new hnew
    cases hstart : t.startFillLocked answers slot row with
    | mk status t' =>
        rw [hstart] at h' hnew
        have hwrites := startFillLocked_new hstart hnew
        by_cases hok : status = .ok
        · rw [if_pos hok] at hwrites
          have hfilling := h'.claims.filling slot id hwrites
          refine ⟨slot, fun i hi => h'.room hchecked hsizes hwrites hi, ?_, fun _ => hwrites⟩
          rw [hfilling]
          decide
        · -- A request whose admission failed has written where it was meant to.
          rw [if_neg hok] at hwrites
          obtain ⟨hregion, hplanned⟩ := hwrites
          have hfailed := (startFillLocked_refused hstart hok).1
          refine ⟨slot, fun i hi => ?_, ?_, fun hfilling => ?_⟩
          · rw [hregion]
            exact hplanned.inSlot hchecked (hsizes.exact hchecked) hi.1 hi.2
          · rw [hfailed]
            decide
          · rw [hfailed] at hfilling
            cases hfilling

/-- Owners of a common byte are one. -/
theorem OwnedBy.unique (h : t.OwnedBy id s) {s' : cfg.SlotId} (hscratch : t.ScratchInv)
    (htargets : (t.requests id).Targets i) (hroom : t.Room s' (t.requests id).region i) :
    s = s' :=
  (h.room i htargets).unique hscratch hroom

/-! ## What the requests leave alone -/

section Frame

variable (hchecked : cfg.Checked) (hsizes : cfg.SizesBelow)
  (howned : ∀ id, Writing t t' id → ∃ s, t'.OwnedBy id s)

include hchecked hsizes howned

/-- A request that writes where a claim writes is that claim. -/
theorem Sound.writes_alone (h' : t'.Sound) (hid : id ∈ (t'.slots s).claims)
    (htargets : (t'.requests id).Targets i) (hid' : Writing t t' id')
    (hregion : (t'.requests id').region = (t'.requests id).region)
    (htargets' : (t'.requests id').Targets i) : id' = id := by
  obtain ⟨owner, howner⟩ := howned id' hid'
  have hroom := h'.room hchecked hsizes hid htargets
  rw [← hregion] at hroom
  have hsame := howner.unique h'.scratch htargets' hroom
  rw [hsame] at howner
  have hclaimed := howner.claimed (h'.claims.filling s id hid)
  exact h'.claims_apart hchecked hsizes hclaimed hid htargets' htargets

/-- A claim that is delivered while it may write has landed. -/
theorem Transfers.landed (h : Transfers contents t t' m m') (h' : t'.Sound)
    (hid : id ∈ (t'.slots s).claims) (hwriting : Writing t t' id)
    (hok : (t'.requests id).outcome = some .ok) : Landed contents t' m' id := by
  intro source hsource k hk
  refine h.copies id source hwriting hok hsource k hk fun id' hid' hregion htargets => ?_
  exact h'.writes_alone hchecked hsizes howned hid
    ⟨Nat.le_add_right _ _, Nat.add_lt_add_left hk _⟩ hid' hregion htargets

/-- A claim that has landed stays as it is. -/
theorem Transfers.stays_landed (h : Transfers contents t t' m m') (h' : t'.Sound)
    (hid : id ∈ (t'.slots s).claims) (hnot : ¬ Writing t t' id)
    (hlanded : Landed contents t' m id) : Landed contents t' m' id := by
  intro source hsource k hk
  rw [← hlanded source hsource k hk]
  by_contra hne
  obtain ⟨id', hid', hregion, htargets⟩ := h.writes _ _ hne
  have hsame := h'.writes_alone hchecked hsizes howned hid
    ⟨Nat.le_add_right _ _, Nat.add_lt_add_left hk _⟩ hid' hregion htargets
  rw [hsame] at hid'
  exact hnot hid'

/-- The bytes a slot shows are written by none: the slot is ready, or its fill goes through
the scratch storage. -/
theorem Transfers.stays_shown (h : Transfers contents t t' m m') (h' : t'.Sound)
    (hs : (t'.slots s).state = .ready ∨ (t'.slots s).state = .filling ∧ cfg.converting = true)
    (hshows : Shows contents order t' m s) : Shows contents order t' m' s := by
  have hoccupied : (t'.slots s).Occupied := hs.elim Or.inr fun hfilling => Or.inl hfilling.1
  have hsame : (t'.publishedSpan s).of (m' .output) = (t'.publishedSpan s).of (m .output) := by
    apply bytes_congr
    intro k hk
    by_contra hne
    obtain ⟨id, hid, hregion, htargets⟩ := h.writes _ _ hne
    obtain ⟨owner, howner⟩ := howned id hid
    have hroom : t'.Room s (t'.requests id).region ((t'.publishedSpan s).offset.toNat + k) := by
      rw [hregion]
      exact h'.span_inSlot hchecked hsizes hoccupied hk
    have howns := howner.unique h'.scratch htargets hroom
    rw [howns] at howner
    rcases hs with hready | ⟨hfilling, hconv⟩
    · exact howner.not_ready hready
    · rw [h'.claims_scratch hconv (howner.claimed hfilling)] at hregion
      cases hregion
  obtain ⟨location, source, hlocate, hencodes⟩ := hshows
  refine ⟨location, source, hlocate, ?_⟩
  rw [hsame]
  exact hencodes

end Frame

end Table

end TieredCache
