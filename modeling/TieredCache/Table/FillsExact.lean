/-
# Every fill is exactly its row

The requests of an identity fill tile the window of its row and stay in their slot; once
all of them have copied their bytes, the span the slot exposes holds the row.  In a
converting table one request reads the row into a scratch row, and the exposed span is
what the codec makes of it.  This holds while sizes and shard extents are below `2 ^ 63`.
-/

import TieredCache.Table.Codec
import TieredCache.Table.FilledRows
import TieredCache.Table.Isolation

namespace TieredCache

open Math Math.Memory Math.Runs Math.Tiling

/-- The bytes of a memory in this range. -/
def ByteRange.of (range : ByteRange) (memory : ℕ → UInt8) : List UInt8 :=
  bytes memory range.offset.toNat range.length.toNat

/-- The read has copied its source bytes to its destination. -/
def Read.Copied (read : Read) (source destination : ℕ → UInt8) : Prop :=
  ∀ k < read.source.length.toNat,
    destination (read.destination.toNat + k) = source (read.source.offset.toNat + k)

variable {cfg : TableConfig}

namespace TableConfig

variable {slot : cfg.SlotId} {row : ByteRange} {shard : ShardSource} {reads : List Read}

/-- The reads of an identity fill of this row. -/
structure ReadsRow (cfg : TableConfig) (slot : cfg.SlotId) (row : ByteRange) (shard : ShardSource)
    (reads : List Read) : Prop where
  /-- No two write a common byte. -/
  disjoint : reads.Pairwise fun read later =>
    read.destination.toNat + read.source.length.toNat ≤ later.destination.toNat
  /-- All write inside the slot. -/
  inside : ∀ read ∈ reads, read.Within (slot.val * cfg.outputRowBytes.toNat)
    ((slot.val + 1) * cfg.outputRowBytes.toNat)
  /-- Their sources follow one another over the row, inside the shard. -/
  consecutive : ∃ lo hi, Tiles lo (reads.map Read.piece) hi ∧ lo ≤ row.offset.toNat ∧
    row.stop ≤ hi ∧ hi ≤ shard.bytes.toNat
  /-- With an alignment all of them are aligned, in the source and in the slot. -/
  aligned : cfg.fillAlignment ≠ 0 → ∀ read ∈ reads,
    cfg.fillAlignment.toNat ∣ read.source.offset.toNat ∧
      cfg.fillAlignment.toNat ∣ read.destination.toNat - slot.val * cfg.outputRowBytes.toNat ∧
      (cfg.fillAlignment.toNat ∣ read.source.length.toNat ∨
        read.source.stop = shard.bytes.toNat)

theorem ExactReads.readsRow (h : cfg.ExactReads slot row shard reads) :
    cfg.ReadsRow slot row shard reads where
  disjoint := h.destinations.1
  inside := h.destinations.2
  consecutive := h.sources
  aligned := fun halign _ hread => h.aligned halign hread

/-- The row lies in its slot from `head` on. -/
theorem ExactReads.toNat_rowBase (h : cfg.ExactReads slot row shard reads)
    (hchecked : cfg.Checked) :
    (cfg.slotBase slot + (fillWindow cfg.fillAlignment shard.bytes row).head).toNat =
      slot.val * cfg.outputRowBytes.toNat +
        (fillWindow cfg.fillAlignment shard.bytes row).head.toNat := by
  have hbase := hchecked.toNat_slotBase slot
  have hend := hchecked.slot_end_le slot
  have hfits := h.fits
  have hhead := h.window.head
  have hcovers := h.window.covers
  unfold ByteRange.stop at hcovers
  rw [Nat.add_mul, Nat.one_mul] at hend
  rw [UInt64.toNat_add, hbase, Nat.mod_eq_of_lt]
  omega

/-- A converting table has no windows. -/
theorem Checked.window_converting (hchecked : cfg.Checked) (hconv : cfg.converting = true) :
    fillWindow cfg.fillAlignment shard.bytes row = ⟨row, 0⟩ := by
  have hzero : ¬ cfg.fillAlignment ≠ 0 := fun hne => by
    have hid := hchecked.alignment_identity hne
    rw [hconv] at hid
    cases hid
  rw [fillWindow, if_neg hzero]

/-- The rows of a converting table have the registered length. -/
theorem Located.length_converting (hrow : cfg.Located row shard) (hchecked : cfg.Checked)
    (hconv : cfg.converting = true) : row.length = cfg.sourceRowBytes := by
  have hlength := hrow.length_ok
  unfold lengthOk at hlength
  split at hlength
  · rename_i hbounded
    have hid := hchecked.bounded_identity hbounded
    rw [hconv] at hid
    cases hid
  · exact beq_iff_eq.mp hlength

/-- The codec of a bf16 table takes every row, and widens each element. -/
theorem Checked.widens (hchecked : cfg.Checked) (hsizes : cfg.SizesBelow)
    (hbf16 : cfg.representation = .bf16ToF32) (order : ByteOrder) {source : List UInt8}
    (hlength : source.length = cfg.sourceRowBytes.toNat) :
    ∃ codec, cfg.activeCodec order = some codec ∧
      codec source = some ((List.range (source.length / 2)).flatMap fun i =>
        Bf16ToF32Codec.widen order (source.getD (2 * i) 0) (source.getD (2 * i + 1) 0)) := by
  refine ⟨_, by rw [activeCodec, hbf16], ?_⟩
  have hrepr := hchecked.representation
  unfold representationStatus at hrepr
  rw [hbf16] at hrepr
  by_cases hwidths : cfg.sourceRowBytes % 2 ≠ 0 ∨ cfg.outputRowBytes ≠ cfg.sourceRowBytes * 2
  · rw [if_pos hwidths] at hrepr
    cases hrepr
  rw [not_or, not_not, not_not] at hwidths
  obtain ⟨heven, houtput⟩ := hwidths
  have hsource := hsizes.source
  have heven := congrArg UInt64.toNat heven
  have houtput := congrArg UInt64.toNat houtput
  rw [UInt64.toNat_mod] at heven
  rw [UInt64.toNat_mul] at houtput
  simp only [UInt64.reduceToNat] at heven houtput
  unfold Bf16ToF32Codec.convert
  rw [if_neg]
  rw [not_or, not_not, not_not, hlength]
  exact ⟨by omega, heven⟩

end TableConfig

namespace Table

variable {t : Table cfg} {s : cfg.SlotId}

/-- The located row of the slot, with the requests made for it. -/
structure RequestsFor (t : Table cfg) (s : cfg.SlotId) (ids : List RequestId)
    (location : RowLocation) (source : ShardSource) : Prop where
  located : cfg.locate (t.origin (t.slots s).filledThrough).1 (t.origin (t.slots s).filledThrough).2
    (t.slots s).rowIndex = .ok (location, source)
  claimed : (t.slots s).state = .filling → ids = (t.slots s).claims
  sent : ∀ id ∈ ids, id < t.requestCount ∧ (t.requests id).binding = (t.slots s).filledThrough ∧
    (t.requests id).shard = location.shard.toNat ∧ (t.requests id).region = cfg.fillRegion
  landed : (t.slots s).state = .ready → ∀ id ∈ ids, (t.requests id).outcome = some .ok

/-- The shards of every binding end below `2 ^ 63`. -/
def ShardsBelow (t : Table cfg) : Prop :=
  ∀ b < t.bindingCount, ∀ shard ∈ (t.origin b).1, shard.bytes.toNat < 2 ^ 63

/-- The bytes of a slot. -/
def outputSpan (cfg : TableConfig) (slot : cfg.SlotId) : ByteRange :=
  ⟨cfg.slotBase slot, cfg.outputRowBytes⟩

/-- The bytes of a scratch row. -/
def scratchSpan (cfg : TableConfig) (scratch : cfg.ScratchId) : ByteRange :=
  ⟨cfg.scratchBase scratch, cfg.sourceRowBytes⟩

/-- What every fill is, for tables that run no codec and for tables that do. -/
structure FillsExact (t : Table cfg) (order : ByteOrder) : Prop where
  identity : cfg.converting = false → ∀ s, (t.slots s).Occupied →
    ∃ ids location source, t.RequestsFor s ids location source ∧
      cfg.ReadsRow s location.range source (ids.map fun id => (t.requests id).read) ∧
      ∀ shard output, (∀ id ∈ ids, (t.requests id).read.Copied shard output) →
        (t.publishedSpan s).of output = location.range.of shard
  converting : cfg.converting = true → ∀ s, (t.slots s).Occupied →
    ∃ id scratch location source, t.RequestsFor s [id] location source ∧
      (t.requests id).read = ⟨location.range, cfg.scratchBase scratch⟩ ∧
      location.range.stop ≤ source.bytes.toNat ∧
      ∀ shard scratchBytes output, (t.requests id).read.Copied shard scratchBytes →
        ∀ codec, cfg.activeCodec order = some codec →
          codec ((scratchSpan cfg scratch).of scratchBytes) =
            some ((outputSpan cfg s).of output) →
          codec (location.range.of shard) = some ((t.publishedSpan s).of output)
  /-- A bf16 row is exposed element by element. -/
  widened : cfg.representation = .bf16ToF32 → ∀ source : List UInt8,
    source.length = cfg.sourceRowBytes.toNat →
    ∃ codec, cfg.activeCodec order = some codec ∧
      codec source = some ((List.range (source.length / 2)).flatMap fun i =>
        Bf16ToF32Codec.widen order (source.getD (2 * i) 0) (source.getD (2 * i + 1) 0))

/-- The requests of a slot that is filled from its row. -/
theorem FilledFrom.requestsFor {ids : List RequestId} {scratch : Option cfg.ScratchId}
    {location : RowLocation} {source : ShardSource}
    (h : t.FilledFrom s ids scratch location source)
    (hclaims : (t.slots s).state = .filling → ids = (t.slots s).claims)
    (hland : (t.slots s).state = .ready → ∀ id ∈ ids, (t.requests id).outcome = some .ok) :
    t.RequestsFor s ids location source :=
  ⟨h.located, hclaims, h.submitted.set, hland⟩

/-- Slots filled from their rows expose them. -/
theorem RowsInv.fillsExact (h : t.RowsInv) (hchecked : cfg.Checked) (hsizes : cfg.SizesBelow)
    (hbooks : t.BookInv) (hpast : t.PastBindings) (hshards : t.ShardsBelow) (order : ByteOrder) :
    t.FillsExact order where
  identity := fun hid s hs => by
    obtain ⟨ids, scratch, location, source, hfrom, hclaims, hland⟩ := h s hs
    obtain ⟨-, hsource, hrow⟩ := cfg.locate_eq_ok hfrom.located
    have hbelow : source.bytes.toNat < 2 ^ 63 :=
      hshards _ (lt_of_le_of_lt (hpast s) hbooks.current_lt) source (List.mem_of_getElem? hsource)
    have hreads : cfg.ExactReads s _ _ _ := hsizes.exactReads hchecked hid hrow hbelow
    have hplan := hfrom.submitted.reads
    rw [TableConfig.fillReads, if_neg (by rw [hid]; decide)] at hplan
    refine ⟨ids, location, source, hfrom.requestsFor hclaims hland, ?_, fun shard output hcopied => ?_⟩
    · rw [hplan]
      exact hreads.readsRow
    · have hbytes := hfrom.bytes
      rw [hid, if_neg Bool.false_ne_true] at hbytes
      rw [ByteRange.of, ByteRange.of, publishedSpan, hfrom.offset, hbytes]
      dsimp only
      rw [hreads.toNat_rowBase hchecked]
      apply hreads.copied
      intro read hread
      rw [← hplan] at hread
      obtain ⟨id, hid, rfl⟩ := List.mem_map.mp hread
      exact hcopied id hid
  converting := fun hconv s hs => by
    obtain ⟨ids, scratch, location, source, hfrom, hclaims, hland⟩ := h s hs
    obtain ⟨-, -, hrow⟩ := cfg.locate_eq_ok hfrom.located
    obtain ⟨index, hindex⟩ := Option.isSome_iff_exists.mp (hfrom.scratch hconv)
    -- One request, for the one read there is.
    have hplan := hfrom.submitted.reads
    rw [TableConfig.fillReads, if_pos hconv, hindex] at hplan
    obtain ⟨id, rest, hids, hread, hrest⟩ := List.map_eq_cons_iff.mp hplan
    rw [List.map_eq_nil_iff.mp hrest] at hids
    subst hids
    have hlength := hrow.length_converting hchecked hconv
    refine ⟨id, index, location, source, hfrom.requestsFor hclaims hland, hread, hrow.end_le,
      fun shard scratchBytes output hcopied codec hcodec hconverted => ?_⟩
    have hscratch : (scratchSpan cfg index).of scratchBytes = location.range.of shard := by
      rw [ByteRange.of, ByteRange.of, scratchSpan, hlength]
      apply bytes_congr
      intro k hk
      rw [hread] at hcopied
      exact hcopied k (by rw [hlength]; exact hk)
    have hspan : t.publishedSpan s = outputSpan cfg s := by
      have hbytes := hfrom.bytes
      rw [if_pos hconv] at hbytes
      rw [publishedSpan, outputSpan, hfrom.offset, hchecked.window_converting hconv, hbytes,
        UInt64.add_zero]
    rw [hspan, ← hscratch]
    exact hconverted
  widened := fun hbf16 _ hlength => hchecked.widens hsizes hbf16 order hlength

end Table

/-- An `invalidate` names shards that end below `2 ^ 63`. -/
def Action.ShardsBelow : Action cfg → Prop
  | .invalidate _ _ sources _ => ∀ shard ∈ sources, shard.bytes.toNat < 2 ^ 63
  | _ => True

instance : DecidablePred (Action.ShardsBelow : Action cfg → Prop)
  | .invalidate _ _ sources _ => inferInstanceAs (Decidable (∀ shard ∈ sources, _))
  | .resolveInto .. => isTrue trivial
  | .wait .. => isTrue trivial
  | .drain .. => isTrue trivial
  | .advance .. => isTrue trivial
  | .leave .. => isTrue trivial
  | .work .. => isTrue trivial
  | .tryGet .. => isTrue trivial
  | .reset .. => isTrue trivial
  | .move .. => isTrue trivial
  | .prefetch .. => isTrue trivial
  | .dropTicket .. => isTrue trivial
  | .moveTicket .. => isTrue trivial
  | .deliver .. => isTrue trivial

namespace World

variable {w w' : World cfg} {action : Action cfg}

theorem shardsBelow_step (hfill : w.FillInv) (h : w.table.ShardsBelow)
    (hallowed : action.ShardsBelow) (hstep : w.step action = some w') :
    w'.table.ShardsBelow := by
  by_cases hinstalls : w.Reinstalls action
  · cases action with
    | invalidate creation generation sources resolver =>
        rw [step_installs hinstalls hstep]
        intro b hb shard hshard
        have hshard : shard ∈ (Function.update w.table.bindings w.table.bindingCount _ b).origin.1 :=
          hshard
        by_cases hnew : b = w.table.bindingCount
        · rw [hnew, Function.update_self] at hshard
          exact hallowed shard hshard
        · rw [Function.update_of_ne hnew] at hshard
          exact h b (lt_of_le_of_ne (Nat.le_of_lt_succ hb) hnew) shard hshard
    | _ => exact hinstalls.elim
  · have hsame := step_bindings hfill hstep hinstalls
    intro b hb
    rw [hsame.origin]
    rw [hsame.count] at hb
    exact h b hb

/-- What exactness rests on holds in every state reached with such shards. -/
theorem shardsBelow_of_reaches {h : cfg.Accepted} (hsizes : cfg.SizesBelow)
    (hw : Reaches World.step (fun _ action => action.ShardsBelow) (World.start cfg h) w) :
    w.table.ShardsBelow :=
  hw.invariant_of (fun _ hu => fillInv_of_reachable hu.reachable)
    (fun _ _ shard hshard => hsizes.shards shard hshard)
    fun _ _ _ hfill hbelow hallowed hstep => shardsBelow_step hfill hbelow hallowed hstep

/-- In every run over shards below `2 ^ 63`, every fill is exactly its row. -/
theorem fills_exact {h : cfg.Accepted} (hsizes : cfg.SizesBelow) (order : ByteOrder)
    (hw : Reaches World.step (fun _ action => action.ShardsBelow) (World.start cfg h) w) :
    w.table.FillsExact order :=
  (rowsInv_of_reachable hw.reachable).fillsExact h.checked hsizes
    (bookInv_of_reachable hw.reachable) (pastBindings_of_reachable hw.reachable)
    (shardsBelow_of_reaches hsizes hw) order

end World

/-! ## A run -/

/-- Row 0 of the small table, read in two chunks, is resident. -/
theorem fills_exact_resident :
    ∃ w, exec World.step residentRun (World.start twoShards twoShards_accepted) = some w ∧
      w.table.FillsExact .little := by
  have hrun : (exec World.step residentRun (World.start twoShards twoShards_accepted)).isSome := by
    decide +kernel
  have hallowed : AllAllowed World.step (fun _ action => action.ShardsBelow) residentRun
      (World.start twoShards twoShards_accepted) := by
    decide +kernel
  obtain ⟨w, hw⟩ := Option.isSome_iff_exists.mp hrun
  exact ⟨w, hw, World.fills_exact (by decide +kernel) .little
    (reaches_of_exec .start hallowed hw)⟩

end TieredCache
