/-
# What leases show

The machine together with the caller's storage.  In runs that give up no live request, with
room for their leases and over shards below `2 ^ 63`, every lease that has been handed out shows
the bytes of its row, as the binding it was admitted through locates it, until it is released.
-/

import TieredCache.Table.LeaseStability
import TieredCache.Table.Transfers

namespace TieredCache

open Math Math.Memory Math.Runs

variable {cfg : TableConfig}

/-- The bytes a read writes to. -/
def Read.landing (read : Read) : ByteRange := ⟨read.destination, read.source.length⟩

namespace Table

variable {t t' : Table cfg} {s : cfg.SlotId} {id : RequestId} {contents : Contents}
  {order : ByteOrder} {m m' : Buffers} {done done' : cfg.SlotId → Prop}

/-! ## One edit -/

/-- What a slot shows depends on its row and its span. -/
theorem Shows.congr (h : Shows contents order t m s)
    (horigin : t'.origin (t.slots s).filledThrough = t.origin (t.slots s).filledThrough)
    (hrow : (t'.slots s).rowIndex = (t.slots s).rowIndex)
    (hthrough : (t'.slots s).filledThrough = (t.slots s).filledThrough)
    (hoffset : (t'.slots s).publishedOffset = (t.slots s).publishedOffset)
    (hbytes : (t'.slots s).publishedBytes = (t.slots s).publishedBytes) :
    Shows contents order t' m s := by
  obtain ⟨location, source, hlocate, hencodes⟩ := h
  refine ⟨location, source, ?_, ?_⟩
  · rw [hthrough, horigin, hrow]
    exact hlocate
  · rw [publishedSpan, hoffset, hbytes]
    exact hencodes

/-- A slot of which nothing but pins and second-chance bit changes shows what it did. -/
theorem Shows.sameFill (h : Shows contents order t m s) (hslot : SameFill (t.slots s) (t'.slots s))
    (horigin : t'.origin (t.slots s).filledThrough = t.origin (t.slots s).filledThrough) :
    Shows contents order t' m s := by
  obtain ⟨r, p, hr⟩ := hslot
  apply h.congr horigin <;> rw [hr]

/-- What a request has copied it has copied for good. -/
theorem Landed.grows (h : Landed contents t m id) (hid : id < t.requestCount)
    (hdone : ¬ (t.requests id).Live) (hgrows : Grows t t')
    (horigin : t'.origin (t.requests id).binding = t.origin (t.requests id).binding) :
    Landed contents t' m id := by
  have hsame := (hgrows.later id hid).eq_of_delivered hdone
  intro source hsource
  unfold sourceOf at hsource
  rw [hsame, horigin] at hsource
  rw [hsame]
  exact h source hsource

/-- An edit keeps the storage in order. -/
theorem BytesInv.edit (h : BytesInv contents order t m done) (hsound : t.Sound)
    (hsound' : t'.Sound) (hchecked : cfg.Checked) (hsizes : cfg.SizesBelow) (he : Edit t t')
    (htransfers : Transfers contents t t' m m') : BytesInv contents order t' m' done := by
  have howned : ∀ id, Writing t t' id → ∃ s, t'.OwnedBy id s := fun id hid =>
    he.owned hsound hsound' hchecked hsizes hid
  have horigin : ∀ s, t'.origin (t.slots s).filledThrough = t.origin (t.slots s).filledThrough :=
    fun s => he.origin (lt_of_le_of_lt (hsound.past s) hsound.books.current_lt)
  have hdone : ∀ s, done s → (t'.slots s).state = .filling ∧ cfg.converting = true := by
    intro s hs
    obtain ⟨hfilling, hconv⟩ := h.done s hs
    obtain ⟨r, p, hr⟩ := he.sameFill hfilling
    rw [hr]
    exact ⟨hfilling, hconv⟩
  refine ⟨fun s id hid hok => ?_, fun s hs => ?_, hdone⟩
  · by_cases hwriting : Writing t t' id
    · exact htransfers.landed hchecked hsizes howned hsound' hid hwriting hok
    · refine htransfers.stays_landed hchecked hsizes howned hsound' hid hwriting ?_
      -- A request that does not write was delivered before, to the same fill.
      have hlt := hsound'.claims.lt s id hid
      unfold Writing at hwriting
      push Not at hwriting
      obtain ⟨hold, hdelivered⟩ := hwriting hlt
      have hfilling := hsound'.claims.filling s id hid
      rcases he.occupied (Or.inl hfilling) with ⟨r, p, hr⟩ | ⟨answers, row, hfree, hstart⟩
      · rw [hr] at hid
        have hid : id ∈ (t.slots s).claims := hid
        rw [(he.grows.later id hold).eq_of_delivered hdelivered] at hok
        refine (h.landed s id hid hok).grows hold hdelivered he.grows ?_
        rw [hsound.claims.binding s id hid]
        exact horigin s
      · have hnone : (t.slots s).claims = [] := by
          apply hsound.claims.claims_eq_nil
          rw [hfree]
          decide
        exact absurd hold (Nat.not_lt_of_le (startFillLocked_fresh hnone hstart hid))
  · rcases hs with hready | hs
    · refine htransfers.stays_shown hchecked hsizes howned hsound' (Or.inl hready) ?_
      rcases he.occupied (Or.inr hready) with hsame | ⟨answers, row, hfree, hstart⟩
      · refine (h.shown s (Or.inl ?_)).sameFill hsame (horigin s)
        obtain ⟨r, p, hr⟩ := hsame
        rw [hr] at hready
        exact hready
      · rw [(startFillLocked_ok hstart).1] at hready
        cases hready
    · refine htransfers.stays_shown hchecked hsizes howned hsound' (Or.inr (hdone s hs)) ?_
      exact (h.shown s (Or.inr hs)).sameFill (he.sameFill (h.done s hs).1) (horigin s)

/-- Bindings that an edit leaves below the count stay below `2 ^ 63`. -/
theorem Edit.shardsBelow (he : Edit t t') (h : t'.ShardsBelow) : t.ShardsBelow := by
  intro b hb shard hshard
  have hcount : t.bindingCount ≤ t'.bindingCount := by
    cases he with
    | quiet he => exact he.frame.1.bindingCount.ge
    | pinned slot => exact le_rfl
    | unpinned slot => exact le_rfl
    | dropped _ => exact le_rfl
    | installed _ _ _ _ => exact Nat.le_succ _
  rw [← he.origin hb] at hshard
  exact h b (lt_of_lt_of_le hb hcount) shard hshard

/-- The edits of a section. -/
theorem Written.edits (h : Written contents t m t' m') : Edits t t' := by
  induction h with
  | refl => exact .refl
  | tail _ hedit _ ih => exact ih.tail hedit

/-- A section that loses no chunk keeps the storage in order. -/
theorem Written.bytesInv (hwritten : Written contents t m t' m') (hchecked : cfg.Checked)
    (hsizes : cfg.SizesBelow) (hsound : t.Sound) (hkept : t'.lostChunks = t.lostChunks)
    (hshards : t'.ShardsBelow) (h : BytesInv contents order t m done) :
    t'.Sound ∧ BytesInv contents order t' m' done := by
  induction hwritten with
  | refl => exact ⟨hsound, h⟩
  | tail hfirst hedit htransfers ih =>
      -- The loss count only grows, so it has not moved in either part.
      have hmid := le_antisymm (hkept ▸ hedit.grows.lost) hfirst.edits.grows.lost
      obtain ⟨hsound, h⟩ := ih hmid (hedit.shardsBelow hshards)
      have hsound' := hsound.edit hedit (hkept.trans hmid.symm) hshards
      exact ⟨hsound', h.edit hsound hsound' hchecked hsizes hedit htransfers⟩

/-- A step that makes and ends no request keeps the storage in order, if claims are at most
given up and the rows it shows were shown before. -/
theorem BytesInv.same_requests (h : BytesInv contents order t m done) (hsound' : t'.Sound)
    (hchecked : cfg.Checked) (hsizes : cfg.SizesBelow) (hrequests : t'.requests = t.requests)
    (hcount : t'.requestCount = t.requestCount) (horigin : t'.origin = t.origin)
    (hclaims : ∀ s, ∀ id ∈ (t'.slots s).claims, id ∈ (t.slots s).claims)
    (htransfers : Transfers contents t t' m m')
    (hshown : ∀ s, (t'.slots s).state = .ready ∨ done' s → Shows contents order t' m s)
    (hdone : ∀ s, done' s → (t'.slots s).state = .filling ∧ cfg.converting = true) :
    BytesInv contents order t' m' done' := by
  have howned : ∀ id, Writing t t' id → ∃ s, t'.OwnedBy id s := by
    intro id hid
    have hlive : (t'.requests id).Live := by
      rw [hrequests]
      exact hid.2 (by rw [← hcount]; exact hid.1)
    obtain ⟨s, hs⟩ := hsound'.live id hid.1 hlive
    refine ⟨s, fun i hi => hsound'.room hchecked hsizes hs hi, ?_, fun _ => hs⟩
    rw [hsound'.claims.filling s id hs]
    decide
  refine ⟨fun s id hid hok => ?_, fun s hs => ?_, hdone⟩
  · have hlt : id < t.requestCount := by
      rw [← hcount]
      exact hsound'.claims.lt s id hid
    rw [hrequests] at hok
    have hdelivered : ¬ (t.requests id).Live := fun hlive => by
      rw [hlive] at hok
      cases hok
    refine htransfers.stays_landed hchecked hsizes howned hsound' hid
      (fun hwriting => hdelivered (hwriting.2 hlt)) ?_
    have hlanded := h.landed s id (hclaims s id hid) hok
    intro source hsource
    unfold sourceOf at hsource
    rw [hrequests, horigin] at hsource
    rw [hrequests]
    exact hlanded source hsource
  · exact htransfers.stays_shown hchecked hsizes howned hsound' (hs.imp_right (hdone s)) (hshown s hs)

end Table

namespace World

variable {w w' : World cfg} {action : Action cfg} {contents : Contents} {order : ByteOrder}
  {m m' : Buffers} {g : Option ThreadId} {s : cfg.SlotId}

/-! ## The machine with its storage -/

/-- What the codec does to the storage when a thread runs it on a slot: it reads the claim's
bytes, and writes the slot's part of the output. -/
structure Converts (order : ByteOrder) (w w' : World cfg) (g : Option ThreadId) (s : cfg.SlotId)
    (m m' : Buffers) : Prop where
  frame : ∀ region i, ¬ (region = .output ∧ cfg.InSlot s i) → m' region i = m region i
  result : ∀ id ∈ (w.table.slots s).claims, ∀ codec, cfg.activeCodec order = some codec →
    codec ((w.table.requests id).read.landing.of (m .scratch)) =
      if w'.finisher g = some (s, .publish .ok) then
        some ((Table.outputSpan cfg s).of (m' .output))
      else none

/-- The storage during one step: requests write over the edits of a section, and while a thread
drives a fill; and a thread may run the codec. -/
inductive Fills (contents : Contents) (order : ByteOrder) (w : World cfg) (action : Action cfg)
    (w' : World cfg) (m m' : Buffers) : Prop
  | edited (hsame : ∀ g, w'.finisher g = w.finisher g)
      (h : Table.Written contents w.table m w'.table m')
  | driven (g : Option ThreadId) (hagent : action.agent = some g)
      (hdrives : w.finisher g ≠ none ∨ w'.finisher g ≠ none)
      (hpc : ∀ s, w.finisher g ≠ some (s, .convert))
      (h : Table.Transfers contents w.table w'.table m m')
  | converted (g : Option ThreadId) (s : cfg.SlotId) (hagent : action.agent = some g)
      (hpc : w.finisher g = some (s, .convert)) (h : w.Converts order w' g s m m')

/-- The states the machine and its storage reach by steps that are all allowed.  Between two
steps live requests go on writing. -/
inductive Loaded (contents : Contents) (order : ByteOrder)
    (allowed : World cfg → Action cfg → Prop) (h : cfg.Accepted) : World cfg → Buffers → Prop
  | start (m : Buffers) : Loaded contents order allowed h (World.start cfg h) m
  | writes {w : World cfg} {m m' : Buffers} (hw : Loaded contents order allowed h w m)
      (htransfers : Table.Transfers contents w.table w.table m m') :
      Loaded contents order allowed h w m'
  | step {w w' : World cfg} {action : Action cfg} {m m' : Buffers}
      (hw : Loaded contents order allowed h w m) (hallowed : allowed w action)
      (hstep : w.step action = some w') (hfills : w.Fills contents order action w' m m') :
      Loaded contents order allowed h w' m'

/-- The machine runs as it does without its storage. -/
theorem Loaded.reaches {allowed : World cfg → Action cfg → Prop} {h : cfg.Accepted}
    (hw : Loaded contents order allowed h w m) :
    Reaches World.step allowed (World.start cfg h) w := by
  induction hw with
  | start m => exact .start
  | writes _ _ ih => exact ih
  | step _ hallowed hstep _ ih => exact ih.step hallowed hstep

/-- Fewer restrictions allow more. -/
theorem Loaded.mono {allowed allowed' : World cfg → Action cfg → Prop} {h : cfg.Accepted}
    (himp : ∀ w action, allowed w action → allowed' w action)
    (hw : Loaded contents order allowed h w m) : Loaded contents order allowed' h w m := by
  induction hw with
  | start m => exact .start m
  | writes _ htransfers ih => exact ih.writes htransfers
  | step _ hallowed hstep hfills ih => exact ih.step (himp _ _ hallowed) hstep hfills

/-- The step gives up no live request, names shards below `2 ^ 63` and has room for the leases
it takes. -/
def Orderly (w : World cfg) (action : Action cfg) : Prop :=
  w.GivesUpNothing action ∧ action.ShardsBelow ∧ w.LeaseRoom action

instance (w : World cfg) (action : Action cfg) : Decidable (w.Orderly action) :=
  inferInstanceAs (Decidable (_ ∧ _ ∧ _))

/-- The codec has run on the slot, and its row is about to be published. -/
def Done (w : World cfg) (s : cfg.SlotId) : Prop :=
  cfg.converting = true ∧ ∃ g, w.finisher g = some (s, .publish .ok)

/-! ## The steps -/

/-- Where a codec may run and where a row may be about to be published. -/
theorem finishStep_next {t t' : Table cfg} {deadline : Bool} {choice : Choice} {pc next : FinishPc}
    (h : t.finishStep s deadline choice pc = some (some next, t')) :
    (next = .convert → cfg.converting = true) ∧
      (next = .publish .ok → pc = .convert ∨ cfg.converting = false) := by
  unfold Table.finishStep at h
  split at h
  · split_ifs at h
    · cases h
    · cases h
      exact ⟨fun hpc => (by cases hpc), fun hpc => by cases hpc⟩
  · by_cases hconv : cfg.converting = true
    · rw [if_pos hconv] at h
      cases h
      exact ⟨fun _ => hconv, fun hpc => by cases hpc⟩
    · rw [if_neg hconv] at h
      cases h
      exact ⟨fun hpc => (by cases hpc), fun _ => Or.inr (Bool.not_eq_true _ ▸ hconv)⟩
  · split at h
    · cases h
      exact ⟨fun hpc => (by cases hpc), fun hpc => by cases hpc⟩
    · rename_i status hne _
      cases h
      refine ⟨fun hpc => (by cases hpc), fun hpc => ?_⟩
      exact absurd (fromMempage_eq_ok_iff.mp (FinishPc.publish.inj hpc)) hne
    · split_ifs at h
      cases h
      exact ⟨fun hpc => (by cases hpc), fun hpc => by cases hpc⟩
  · cases h
  · exact ⟨fun hpc => (by cases h; cases hpc), fun _ => Or.inl rfl⟩
  · cases h

/-- Only a converting table runs a codec. -/
def ConvertsRows (w : World cfg) : Prop :=
  ∀ g s, w.finisher g = some (s, .convert) → cfg.converting = true

theorem convertsRows_step (hfill : w.FillInv) (h : w.ConvertsRows) (hstep : w.step action = some w') :
    w'.ConvertsRows := by
  intro k s hk
  cases step_move hfill.index hstep with
  | edits htable hlocal hsame =>
      rw [hsame] at hk
      exact h k s hk
  | tookOver g slot hagent hbefore hfilling hunclaimed htable hnow hothers =>
      by_cases hkg : k = g
      · rw [hkg, hnow] at hk
        cases hk
      · rw [hothers k hkg] at hk
        exact h k s hk
  | finishing g slot pc next deadline choice hagent hbefore hfinish hnow hothers =>
      by_cases hkg : k = g
      · rw [hkg, hnow] at hk
        obtain ⟨pc', rfl, hpc'⟩ := Option.map_eq_some_iff.mp hk
        obtain ⟨-, rfl⟩ := Prod.mk.inj hpc'
        exact (finishStep_next hfinish).1 rfl
      · rw [hothers k hkg] at hk
        exact h k s hk

theorem convertsRows_of_reachable {h : cfg.Accepted}
    (hw : Reachable World.step (World.start cfg h) w) : w.ConvertsRows :=
  hw.invariant_of (fun _ hu => fillInv_of_reachable hu)
    (show (World.start cfg h).ConvertsRows from fun g s hg => by cases g <;> cases hg)
    fun _ _ _ hfill hinv _ hstep => convertsRows_step hfill hinv hstep

/-- What is known of every state of an orderly run. -/
structure Known (w : World cfg) : Prop where
  fill : w.FillInv
  claims : w.ClaimsInv
  converts : w.ConvertsRows
  sound : w.table.Sound

theorem known_of_reaches {h : cfg.Accepted} (hsizes : cfg.SizesBelow)
    (hw : Reaches World.step Orderly (World.start cfg h) w) : w.Known := by
  have hreach := hw.reachable
  refine ⟨fillInv_of_reachable hreach, claimsInv_of_reachable hreach,
    convertsRows_of_reachable hreach, ?_⟩
  exact {
    claims := (claimsInv_of_reachable hreach).claims
    live := liveInv_of_reaches (hw.mono fun _ _ hallowed => hallowed.1)
    books := bookInv_of_reachable hreach
    past := pastBindings_of_reachable hreach
    rows := rowsInv_of_reachable hreach
    scratch := scratchInv_of_reachable hreach
    reads := scratchReads_of_reachable hreach
    shards := shardsBelow_of_reaches hsizes (hw.mono fun _ _ hallowed => hallowed.2.1) }

/-- Where a codec has run its slot is filling. -/
theorem Known.done (h : w.Known) (hs : w.Done s) :
    (w.table.slots s).state = .filling ∧ cfg.converting = true := by
  obtain ⟨hconv, g, hg⟩ := hs
  exact ⟨(h.fill.driven g s _ hg).1, hconv⟩

/-- A finisher that comes or goes keeps the storage in order. -/
theorem bytesInv_setFinishing {t t' : Table cfg} {slot : cfg.SlotId} {finishing : Bool}
    {done done' : cfg.SlotId → Prop} (h : Table.BytesInv contents order t m done)
    (hsound' : t'.Sound) (hchecked : cfg.Checked) (hsizes : cfg.SizesBelow)
    (hrequests : t'.requests = t.requests) (hcount : t'.requestCount = t.requestCount)
    (horigin : t'.origin = t.origin)
    (hslots : t'.slots = Function.update t.slots slot { t.slots slot with finishing := finishing })
    (htransfers : Table.Transfers contents t t' m m') (hdone : ∀ s, done' s → done s) :
    Table.BytesInv contents order t' m' done' := by
  have hproj : ∀ {γ : Type} (proj : Slot cfg → γ),
      proj { t.slots slot with finishing := finishing } = proj (t.slots slot) →
      ∀ s, proj (t'.slots s) = proj (t.slots s) := by
    intro γ proj hslot s
    rw [hslots]
    exact proj_update proj t.slots hslot s
  refine h.same_requests hsound' hchecked hsizes hrequests hcount horigin (fun s id hid => ?_)
    htransfers (fun s hs => ?_) fun s hs => ?_
  · rw [hproj Slot.claims rfl s] at hid
    exact hid
  · rw [hproj Slot.state rfl s] at hs
    exact (h.shown s (hs.imp_right (hdone s))).congr (by rw [horigin]) (hproj Slot.rowIndex rfl s)
      (hproj Slot.filledThrough rfl s) (hproj Slot.publishedOffset rfl s)
      (hproj Slot.publishedBytes rfl s)
  · rw [hproj Slot.state rfl s]
    exact h.done s (hdone s hs)

/-- The row of a fill whose requests have all landed, once the codec has run if there is one,
is in its slot. -/
theorem Known.shows (hk : w.Known) (hchecked : cfg.Checked) (hsizes : cfg.SizesBelow)
    (h : Table.BytesInv contents order w.table m w.Done)
    (hpc : w.finisher g = some (s, .publish .ok)) : Table.Shows contents order w.table m s := by
  cases hconv : cfg.converting with
  | true => exact h.shown s (Or.inr ⟨hconv, g, hpc⟩)
  | false =>
      have hfilling := (hk.fill.driven g s _ hpc).1
      have hall : w.table.AllLanded s := hk.claims.seen g s _ hpc rfl
      have hexact := hk.sound.rows.fillsExact hchecked hsizes hk.sound.books hk.sound.past
        hk.sound.shards order
      obtain ⟨ids, location, source, hrequests, -, hspan⟩ :=
        hexact.identity hconv s (Or.inl hfilling)
      have hclaims := hrequests.claimed hfilling
      have hsource := (cfg.locate_eq_ok hrequests.located).2.1
      refine ⟨location, source, hrequests.located, ?_⟩
      have hnone : cfg.activeCodec order = none := by
        have hidentity : cfg.representation = .identity := by
          simpa [TableConfig.converting] using hconv
        rw [TableConfig.activeCodec, hidentity]
      rw [TableConfig.Encodes, hnone]
      apply hspan
      intro id hid
      obtain ⟨-, hbinding, hshard, hregion⟩ := hrequests.sent id hid
      have hcopied := h.landed s id (hclaims ▸ hid) (hall id (hclaims ▸ hid)) source (by
        rw [Table.sourceOf, hbinding, hshard]
        exact hsource)
      rw [hregion, TableConfig.fillRegion, if_neg (by rw [hconv]; decide)] at hcopied
      exact hcopied

/-- The step of an agent leaves the fills of the others alone. -/
theorem finisher_others (hfill : w.FillInv) (hstep : w.step action = some w')
    (hagent : action.agent = some g) (k : Option ThreadId) (hk : k ≠ g) :
    w'.finisher k = w.finisher k := by
  cases step_move hfill.index hstep with
  | edits htable hlocal hsame => exact hsame k
  | tookOver g' slot hagent' _ _ _ _ _ hothers =>
      exact hothers k (by rwa [Option.some.inj (hagent'.symm.trans hagent)])
  | finishing g' slot pc next deadline choice hagent' _ _ _ hothers =>
      exact hothers k (by rwa [Option.some.inj (hagent'.symm.trans hagent)])

/-- While a thread drives a fill, and does not run the codec, the storage stays in order. -/
theorem bytesInv_driven (hk : w.Known) (hk' : w'.Known) (hchecked : cfg.Checked)
    (hsizes : cfg.SizesBelow) (h : Table.BytesInv contents order w.table m w.Done)
    (hstep : w.step action = some w') (hagent : action.agent = some g)
    (hdrives : w.finisher g ≠ none ∨ w'.finisher g ≠ none)
    (hpc : ∀ s, w.finisher g ≠ some (s, .convert))
    (htransfers : Table.Transfers contents w.table w'.table m m') :
    Table.BytesInv contents order w'.table m' w'.Done := by
  have hsound' := hk'.sound
  have hothers := finisher_others hk.fill hstep hagent
  cases agent_move hk.fill.index hagent hstep with
  | edits hbefore hafter htable =>
      exact absurd hbefore (hdrives.resolve_right fun hne => hne hafter)
  | tookOver slot hbefore hfilling hunclaimed htable hnow =>
      rw [htable] at hsound' htransfers ⊢
      refine bytesInv_setFinishing h hsound' hchecked hsizes rfl rfl rfl rfl htransfers fun s hs => ?_
      obtain ⟨hconv, k', hk'⟩ := hs
      refine ⟨hconv, k', ?_⟩
      by_cases hkk : k' = g
      · rw [hkk, hnow] at hk'
        cases hk'
      · rwa [hothers k' hkk] at hk'
  | finishing slot pc next deadline choice hbefore hfinish hnow =>
      obtain ⟨hfilling, -⟩ := hk.fill.driven g slot pc hbefore
      -- What is about to be published afterwards was about to be published before.
      have hdone : ∀ s, w'.Done s → w.Done s := by
        rintro s ⟨hconv, k', hk'⟩
        refine ⟨hconv, k', ?_⟩
        by_cases hkk : k' = g
        · rw [hkk, hnow] at hk'
          obtain ⟨pc', rfl, hpc'⟩ := Option.map_eq_some_iff.mp hk'
          obtain ⟨-, rfl⟩ := Prod.mk.inj hpc'
          rcases (finishStep_next hfinish).2 rfl with rfl | hid
          · exact absurd hbefore (hpc slot)
          · rw [hid] at hconv
            cases hconv
        · rwa [hothers k' hkk] at hk'
      have hmove := Table.finishStep_move hfilling hfinish
      have hdone' := fun s (hs : w'.Done s) => hk'.done hs
      generalize htable : w'.table = t' at *
      cases hmove with
      | stays next =>
          exact h.same_requests hk.sound hchecked hsizes rfl rfl rfl (fun _ _ hid => hid) htransfers
            (fun s hs => h.shown s (hs.imp_right (hdone s))) hdone'
      | relinquished hpc' =>
          exact bytesInv_setFinishing h hsound' hchecked hsizes rfl rfl rfl rfl htransfers hdone
      | published result hpc' =>
          have hother : ∀ s, s ≠ slot → (w.table.publish slot result).slots s = w.table.slots s :=
            fun s hs => Function.update_of_ne hs _ _
          have hself : (w.table.publish slot result).slots slot = _ := Function.update_self ..
          have horigin := (w.table.publish_sameBindings slot result).origin
          refine h.same_requests hsound' hchecked hsizes rfl rfl horigin (fun s id hid => ?_)
            htransfers (fun s hs => ?_) hdone'
          · by_cases hs : s = slot
            · subst hs
              rw [hself] at hid
              cases hid
            · rwa [hother s hs] at hid
          · by_cases hslot : s = slot
            · subst hslot
              have hok : result = .ok := by
                rcases hs with hready | hs
                · by_contra hne
                  rw [hself] at hready
                  dsimp only at hready
                  rw [if_neg hne] at hready
                  cases hready
                · have hfilling' := (hdone' s hs).1
                  rw [hself] at hfilling'
                  dsimp only at hfilling'
                  split_ifs at hfilling'
              rw [hpc', hok] at hbefore
              refine (hk.shows hchecked hsizes h hbefore).congr (by rw [horigin]) ?_ ?_ ?_ ?_ <;>
                rw [hself]
            · rw [hother s hslot] at hs
              refine (h.shown s (hs.imp_right (hdone s))).congr (by rw [horigin]) ?_ ?_ ?_ ?_ <;>
                rw [hother s hslot]

/-- A converting table has a codec. -/
theorem exists_activeCodec (hchecked : cfg.Checked) (hconv : cfg.converting = true)
    (order : ByteOrder) : ∃ codec, cfg.activeCodec order = some codec := by
  have hrepr := hchecked.representation
  unfold TableConfig.representationStatus at hrepr
  unfold TableConfig.activeCodec
  cases hkind : cfg.representation with
  | identity => simp [TableConfig.converting, hkind] at hconv
  | bf16ToF32 => exact ⟨_, rfl⟩
  | custom =>
      rw [hkind] at hrepr
      cases hcodec : cfg.codec with
      | none => simp [hcodec] at hrepr
      | some codec => exact ⟨codec, rfl⟩

/-- The codec leaves the storage in order, and the slot it has converted into shows its row. -/
theorem bytesInv_converted (hk : w.Known) (hk' : w'.Known) (hchecked : cfg.Checked)
    (hsizes : cfg.SizesBelow)
    (h : Table.BytesInv contents order w.table m w.Done) (hstep : w.step action = some w')
    (hagent : action.agent = some g) (hpc : w.finisher g = some (s, .convert))
    (hconverts : w.Converts order w' g s m m') :
    Table.BytesInv contents order w'.table m' w'.Done := by
  have hconv : cfg.converting = true := hk.converts g s hpc
  have hfilling := (hk.fill.driven g s _ hpc).1
  have hothers := finisher_others hk.fill hstep hagent
  obtain ⟨htable, pc', hnow⟩ : w'.table = w.table ∧ ∃ pc', w'.finisher g = some (s, pc') := by
    cases agent_move hk.fill.index hagent hstep with
    | edits hbefore _ _ =>
        rw [hpc] at hbefore
        cases hbefore
    | tookOver slot hbefore _ _ _ _ =>
        rw [hpc] at hbefore
        cases hbefore
    | finishing slot pc next deadline choice hbefore hfinish hafter =>
        rw [hpc] at hbefore
        obtain ⟨rfl, rfl⟩ := Prod.mk.inj (Option.some.inj hbefore)
        obtain ⟨hnext, htable⟩ := Prod.mk.inj (Option.some.inj hfinish)
        rw [← hnext] at hafter
        exact ⟨htable.symm, _, hafter⟩
  have hdone : ∀ s', s' ≠ s → w'.Done s' → w.Done s' := by
    rintro s' hs ⟨-, k, hk'⟩
    by_cases hkg : k = g
    · rw [hkg, hnow] at hk'
      exact absurd (Prod.mk.inj (Option.some.inj hk')).1.symm hs
    · rw [hothers k hkg] at hk'
      exact ⟨hconv, k, hk'⟩
  have hdone' := fun s' (hs : w'.Done s') => hk'.done hs
  rw [htable] at hdone' ⊢
  refine ⟨fun s' id hid hok source hsource => ?_, fun s' hs => ?_, hdone'⟩
  · -- What has landed is in the scratch storage.
    have hregion := hk.sound.claims_scratch hconv hid
    intro k hk
    rw [hconverts.frame _ _ fun hout => by rw [hregion] at hout; cases hout.1]
    exact h.landed s' id hid hok source hsource k hk
  · by_cases hss : s' = s
    · subst hss
      have hpublish : w'.finisher g = some (s', .publish .ok) := by
        rcases hs with hready | ⟨-, k, hk'⟩
        · rw [hfilling] at hready
          cases hready
        · by_cases hkg : k = g
          · rwa [← hkg]
          · rw [hothers k hkg] at hk'
            exact absurd (hk.fill.alone k g s' _ _ hk' hpc) hkg
      have hexact := hk.sound.rows.fillsExact hchecked hsizes hk.sound.books hk.sound.past
        hk.sound.shards order
      obtain ⟨id, scratch, location, source, hrequests, hread, -, hspan⟩ :=
        hexact.converting hconv s' (Or.inl hfilling)
      have hid : id ∈ (w.table.slots s').claims := by
        rw [← hrequests.claimed hfilling]
        exact List.mem_singleton_self id
      obtain ⟨-, hsource, hrow⟩ := cfg.locate_eq_ok hrequests.located
      obtain ⟨-, hbinding, hshard, -⟩ := hrequests.sent id (List.mem_singleton_self id)
      have hcopied := h.landed s' id hid (hk.claims.seen g s' _ hpc id hid) source (by
        rw [Table.sourceOf, hbinding, hshard]
        exact hsource)
      rw [hk.sound.claims_scratch hconv hid] at hcopied
      obtain ⟨codec, hcodec⟩ := exists_activeCodec hchecked hconv order
      have hresult := hconverts.result id hid codec hcodec
      rw [if_pos hpublish, hread, Read.landing] at hresult
      dsimp only at hresult
      rw [hrow.length_converting hchecked hconv] at hresult
      refine ⟨location, source, hrequests.located, ?_⟩
      rw [TableConfig.Encodes, hcodec]
      exact hspan _ _ _ hcopied codec hcodec hresult
    · obtain ⟨location, source, hlocate, hencodes⟩ := h.shown s' (hs.imp_right (hdone s' hss))
      have hoccupied : (w.table.slots s').Occupied := hs.elim Or.inr fun hs => Or.inl (hdone' s' hs).1
      refine ⟨location, source, hlocate, ?_⟩
      have hsame : (w.table.publishedSpan s').of (m' .output) =
          (w.table.publishedSpan s').of (m .output) := by
        apply bytes_congr
        intro k hk'
        apply hconverts.frame
        rintro ⟨-, hin⟩
        exact hss ((hk.sound.span_inSlot hchecked hsizes hoccupied hk').unique hin)
      rw [hsame]
      exact hencodes

/-- The storage is in order in every state of an orderly run. -/
theorem bytesInv_of_loaded {h : cfg.Accepted} (hsizes : cfg.SizesBelow)
    (hw : Loaded contents order Orderly h w m) :
    Table.BytesInv contents order w.table m w.Done := by
  induction hw with
  | start m =>
      refine ⟨fun s id hid => (by cases hid), fun s hs => ?_, fun s hs => ?_⟩
      · rcases hs with hready | ⟨-, g, hg⟩
        · cases hready
        · cases g <;> cases hg
      · obtain ⟨-, g, hg⟩ := hs
        cases g <;> cases hg
  | writes hw htransfers ih =>
      have hk := known_of_reaches hsizes hw.reaches
      exact ih.same_requests hk.sound h.checked hsizes rfl rfl rfl (fun _ _ hid => hid) htransfers
        ih.shown fun s hs => hk.done hs
  | step hw hallowed hstep hfills ih =>
      rename_i w w' action m m'
      have hk := known_of_reaches hsizes hw.reaches
      have hk' := known_of_reaches hsizes (hw.reaches.step hallowed hstep)
      cases hfills with
      | edited hsame hwritten =>
          obtain ⟨-, hnext⟩ := hwritten.bytesInv h.checked hsizes hk.sound
            (hallowed.1.2 w' hstep) hk'.sound.shards ih
          have hdone : w'.Done = w.Done := by
            funext s
            unfold Done
            rw [funext hsame]
          rwa [hdone]
      | driven g hagent hdrives hpc htransfers =>
          exact bytesInv_driven hk hk' h.checked hsizes ih hstep hagent hdrives hpc htransfers
      | converted g s hagent hpc hconverts =>
          exact bytesInv_converted hk hk' h.checked hsizes ih hstep hagent hpc hconverts

/-! ## A transport that does its work -/

/-- Requests that are delivered in full can have copied their sources. -/
theorem exists_transfers (contents : Contents) (t t' : Table cfg) (m : Buffers) :
    ∃ m', Table.Transfers contents t t' m m' := by
  -- Each byte is copied by a request that has been delivered in full, or stays.
  have hbyte : ∀ region i, ∃ byte,
      (∃ id source, (Table.Writing t t' id ∧ (t'.requests id).region = region ∧
          (t'.requests id).Targets i) ∧ t'.sourceOf id = some source ∧
          byte = contents source.source ((t'.requests id).read.source.offset.toNat +
            (i - (t'.requests id).read.destination.toNat))) ∨
        byte = m region i ∧ ∀ id source, Table.Writing t t' id →
          (t'.requests id).region = region → (t'.requests id).Targets i →
          t'.sourceOf id ≠ some source := by
    intro region i
    by_cases h : ∃ id source, (Table.Writing t t' id ∧ (t'.requests id).region = region ∧
        (t'.requests id).Targets i) ∧ t'.sourceOf id = some source
    · obtain ⟨id, source, hid, hsource⟩ := h
      exact ⟨_, Or.inl ⟨id, source, hid, hsource, rfl⟩⟩
    · refine ⟨_, Or.inr ⟨rfl, fun id source hid hregion htargets hsource => ?_⟩⟩
      exact h ⟨id, source, ⟨hid, hregion, htargets⟩, hsource⟩
  choose m' hm' using hbyte
  refine ⟨m', fun region i hne => ?_, fun id source hid hok hsource k hk halone => ?_⟩
  · rcases hm' region i with ⟨id, source, hid, -⟩ | ⟨hsame, -⟩
    · exact ⟨id, hid⟩
    · exact absurd hsame hne
  · rcases hm' (t'.requests id).region ((t'.requests id).read.destination.toNat + k) with
      ⟨id', source', ⟨hid', hregion, htargets⟩, hsource', hbyte⟩ | ⟨-, hnone⟩
    · rw [halone id' hid' hregion htargets] at hsource' hbyte
      rw [hsource] at hsource'
      rw [hbyte, ← Option.some.inj hsource', Nat.add_sub_cancel_left]
    · exact absurd hsource (hnone id source hid rfl
        ⟨Nat.le_add_right _ _, Nat.add_lt_add_left hk _⟩)

theorem exists_written (contents : Contents) {t t' : Table cfg} (he : Table.Edits t t')
    (m : Buffers) : ∃ m', Table.Written contents t m t' m' := by
  induction he with
  | refl => exact ⟨m, .refl⟩
  | tail _ hlast ih =>
      obtain ⟨n, hn⟩ := ih
      obtain ⟨m', hm'⟩ := exists_transfers contents _ _ n
      exact ⟨m', hn.tail hlast hm'⟩

/-- Every step of a table without a codec has a storage that goes with it. -/
theorem exists_fills {h : cfg.Accepted} (contents : Contents) (order : ByteOrder)
    (hid : cfg.converting = false) (hw : Reachable World.step (World.start cfg h) w)
    (hstep : w.step action = some w') (m : Buffers) :
    ∃ m', w.Fills contents order action w' m m' := by
  have hfill := fillInv_of_reachable hw
  obtain ⟨n, hn⟩ := exists_transfers contents w.table w'.table m
  cases step_move hfill.index hstep with
  | edits htable hlocal hsame =>
      obtain ⟨m', hm'⟩ := exists_written contents htable m
      exact ⟨m', .edited hsame hm'⟩
  | tookOver g slot hagent hbefore hfilling hunclaimed htable hnow hothers =>
      refine ⟨n, .driven g hagent (Or.inr ?_) (fun s hs => ?_) hn⟩
      · rw [hnow]
        exact Option.some_ne_none _
      · rw [hbefore] at hs
        cases hs
  | finishing g slot pc next deadline choice hagent hbefore hfinish hnow hothers =>
      refine ⟨n, .driven g hagent (Or.inl ?_) (fun s hs => ?_) hn⟩
      · rw [hbefore]
        exact Option.some_ne_none _
      · have hconv := convertsRows_of_reachable hw g s hs
        rw [hid] at hconv
        cases hconv

/-- Every run of a table without a codec has a storage that goes with it. -/
theorem exists_loaded {allowed : World cfg → Action cfg → Prop} {h : cfg.Accepted}
    (contents : Contents) (order : ByteOrder) (hid : cfg.converting = false)
    (hw : Reaches World.step allowed (World.start cfg h) w) :
    ∃ m, Loaded contents order allowed h w m := by
  induction hw with
  | start => exact ⟨fun _ _ => 0, .start _⟩
  | step hrun hallowed hstep ih =>
      obtain ⟨m, hm⟩ := ih
      obtain ⟨m', hfills⟩ := exists_fills contents order hid hrun.reachable hstep m
      exact ⟨m', hm.step hallowed hstep hfills⟩

/-! ## Leases show their rows -/

/-- A lease that is not pending in a running call shows its row, where the storage is in order. -/
theorem shows_of_settled {fresh : Prop} {done : cfg.SlotId → Prop}
    (hbytes : Table.BytesInv contents order w.table m done) (hcalls : w.CallsInv fresh)
    {v : LeaseVar} {l : Lease cfg} (hv : w.leases v = some l) (hsettled : ¬ w.Unsettled v) :
    ∃ location source, cfg.locate (w.table.origin l.through).1 (w.table.origin l.through).2
        l.rowIndex = .ok (location, source) ∧
      cfg.Encodes order (location.range.of (contents source.source)) (l.bytes.of (m .output)) := by
  have hnames := hcalls.pins.names v l hv
  have hstable := hcalls.stable v l hv hsettled
  obtain ⟨location, source, hlocate, hencodes⟩ := hbytes.shown l.slot (Or.inl hstable.ready)
  rw [hnames.through, show (w.table.slots l.slot).rowIndex = l.rowIndex from
    congrArg Prod.fst hnames.key] at hlocate
  rw [hstable.bytes] at hencodes
  exact ⟨location, source, hlocate, hencodes⟩

/-- In every orderly run, every lease that is not pending in a running call shows its row. -/
theorem leases_show_rows {h : cfg.Accepted} (hsizes : cfg.SizesBelow)
    (hw : Loaded contents order Orderly h w m) {v : LeaseVar} {l : Lease cfg}
    (hv : w.leases v = some l) (hsettled : ¬ w.Unsettled v) :
    ∃ location source, cfg.locate (w.table.origin l.through).1 (w.table.origin l.through).2
        l.rowIndex = .ok (location, source) ∧
      cfg.Encodes order (location.range.of (contents source.source)) (l.bytes.of (m .output)) :=
  shows_of_settled (bytesInv_of_loaded hsizes hw)
    (callsInv_of_room (hw.reaches.mono fun _ _ hallowed => hallowed.2.2)) hv hsettled

end World

/-! ## A run -/

/-- Row 0 of the small table, read in two chunks, is leased. -/
def leasedRun : List (Action twoShards) := residentRun ++ [.tryGet 0 0]

/-- The lease shows the two bytes its shard starts with. -/
theorem leases_show_rows_leased :
    ∃ w m l, World.Loaded (fun source i => UInt8.ofNat (10 * source + i)) .little World.Orderly
        twoShards_accepted w m ∧ w.leases 0 = some l ∧ l.bytes.of (m .output) = [0, 1] := by
  have hrun : (exec World.step leasedRun (World.start twoShards twoShards_accepted)).any fun w =>
      w.inUse 0 = false ∧ ∃ l ∈ w.leases 0, twoShards.locate (w.table.origin l.through).1
        (w.table.origin l.through).2 l.rowIndex = .ok (⟨0, ⟨0, 2⟩⟩, ⟨0, 2⟩) := by
    decide +kernel
  have hallowed : AllAllowed World.step World.Orderly leasedRun
      (World.start twoShards twoShards_accepted) := by
    decide +kernel
  obtain ⟨w, hw, hfacts⟩ := (Option.any_eq_true _ _).mp hrun
  obtain ⟨hfree, l, hl, hlocate⟩ := of_decide_eq_true hfacts
  have hreaches := reaches_of_exec .start hallowed hw
  obtain ⟨m, hm⟩ := World.exists_loaded (fun source i => UInt8.ofNat (10 * source + i)) .little
    (by decide) hreaches
  have hcalls := World.callsInv_of_room (hreaches.mono fun _ _ hallowed => hallowed.2.2)
  obtain ⟨location, source, hlocate', hencodes⟩ :=
    World.leases_show_rows (by decide +kernel) hm hl (hcalls.settled_of_free hfree)
  rw [hlocate] at hlocate'
  cases hlocate'
  exact ⟨w, m, l, hm, hl, hencodes⟩

end TieredCache
