/-
# Live requests are claimed

A finisher that publishes a row as ready has seen every request of the fill delivered.
One that publishes a failure has only seen the first failing chunk, and a refused chunk
drops the claims of the chunks before it: there a live request can be given up.  In a
run where neither happens every live request is claimed, and a zero count of fills in flight
leaves none.
-/

import TieredCache.Table.Claims

namespace TieredCache

open Math.Runs

variable {cfg : TableConfig}

namespace Table

variable {t t' : Table cfg} {slot : cfg.SlotId}

/-- Every claim of the slot is on a request delivered in full. -/
def AllLanded (t : Table cfg) (slot : cfg.SlotId) : Prop :=
  ∀ id ∈ (t.slots slot).claims, (t.requests id).outcome = some .ok

/-- What a thread inside `finish_fill` has already seen. -/
def Seen (t : Table cfg) (slot : cfg.SlotId) : FinishPc → Prop
  | .enter => True
  | .timedOut => True
  | .waiting pending =>
      ∀ id ∈ (t.slots slot).claims, id ∈ pending ∨ (t.requests id).outcome = some .ok
  | .convert => t.AllLanded slot
  | .publish result => result = .ok → t.AllLanded slot

/-- What has been seen stays seen while the claims stay and requests only end. -/
theorem Seen.mono {pc : FinishPc} (h : t.Seen slot pc)
    (hclaims : (t'.slots slot).claims = (t.slots slot).claims)
    (hlater : ∀ id ∈ (t.slots slot).claims, (t.requests id).Later (t'.requests id)) :
    t'.Seen slot pc := by
  have hland : ∀ id ∈ (t.slots slot).claims, (t.requests id).outcome = some .ok →
      (t'.requests id).outcome = some .ok := by
    intro id hid hok
    rw [(hlater id hid).eq_of_delivered fun hlive => by rw [hlive] at hok; cases hok]
    exact hok
  have hall : t.AllLanded slot → t'.AllLanded slot := fun hall id hid => by
    rw [hclaims] at hid
    exact hland id hid (hall id hid)
  cases pc with
  | enter => trivial
  | timedOut => trivial
  | waiting pending =>
      intro id hid
      rw [hclaims] at hid
      exact (h id hid).imp_right (hland id hid)
  | convert => exact hall h
  | publish result => exact fun hok => hall (h hok)

/-- One step of `finish_fill` sees what it goes on with. -/
theorem Seen.finishStep {pc next : FinishPc} {deadline : Bool} {choice : Choice}
    (h : t.Seen slot pc) (hclaims : t.ClaimInv)
    (hstep : t.finishStep slot deadline choice pc = some (some next, t')) : t'.Seen slot next := by
  cases pc with
  | enter =>
      unfold Table.finishStep at hstep
      dsimp only at hstep
      split_ifs at hstep
      · cases hstep
      · cases hstep
        intro id hid
        refine Or.inl ?_
        unfold awaited
        dsimp only
        split_ifs with hchunks
        · rwa [Slot.claims, hchunks, List.append_nil] at hid
        · rw [Slot.claims, (hclaims.one_kind slot).resolve_right hchunks] at hid
          exact hid
  | waiting pending =>
      cases pending with
      | nil =>
          unfold Table.finishStep at hstep
          dsimp only at hstep
          have hall : t.AllLanded slot := fun id hid => (h id hid).resolve_left (List.not_mem_nil)
          split_ifs at hstep <;> cases hstep
          · exact hall
          · exact fun _ => hall
      | cons id rest =>
          unfold Table.finishStep at hstep
          dsimp only at hstep
          split at hstep
          · rename_i hok
            cases hstep
            intro id' hid'
            rcases h id' hid' with hmem | hland
            · rcases List.mem_cons.mp hmem with rfl | hmem
              · exact Or.inr hok
              · exact Or.inl hmem
            · exact Or.inr hland
          · rename_i status hne hstatus
            cases hstep
            intro hok
            exact absurd (fromMempage_eq_ok_iff.mp hok) hne
          · split_ifs at hstep
            cases hstep
            trivial
  | timedOut => cases hstep
  | convert =>
      cases hstep
      exact fun _ => h
  | publish result => cases hstep

/-- A thread at this point of `finish_fill` is about to publish the failure of a fill that
still has a live request. -/
def GivesUp (t : Table cfg) : cfg.SlotId × FinishPc → Prop
  | (slot, .publish result) =>
      result ≠ .ok ∧ ∃ id ∈ (t.slots slot).claims, (t.requests id).Live
  | _ => False

instance (t : Table cfg) : DecidablePred t.GivesUp
  | (_, .publish _) => inferInstanceAs (Decidable (_ ∧ _))
  | (_, .enter) => isFalse id
  | (_, .waiting _) => isFalse id
  | (_, .timedOut) => isFalse id
  | (_, .convert) => isFalse id

end Table

namespace World

variable {w w' : World cfg} {action : Action cfg}

/-- Claims are in order, and finishers have seen what they go by. -/
structure ClaimsInv (w : World cfg) : Prop where
  claims : w.table.ClaimInv
  seen : ∀ g slot pc, w.finisher g = some (slot, pc) → w.table.Seen slot pc

/-- The step gives up no live request: a thread that publishes a failure finds every
chunk of the fill delivered, and no refused chunk drops a live one. -/
def GivesUpNothing (w : World cfg) (action : Action cfg) : Prop :=
  (∀ g ∈ action.agent, ∀ fill ∈ w.finisher g, ¬ w.table.GivesUp fill) ∧
    ∀ w' ∈ w.step action, w'.table.lostChunks = w.table.lostChunks

instance (w : World cfg) (action : Action cfg) : Decidable (w.GivesUpNothing action) :=
  inferInstanceAs (Decidable (_ ∧ _))

/-- Claims of a driven slot are claims after the step, unless its own agent moved. -/
theorem seen_of_sameFill {t : Table cfg} {slot : cfg.SlotId} {pc : FinishPc}
    (hseen : w.table.Seen slot pc) (hclaims : w.table.ClaimInv)
    (hslot : Table.SameFill (w.table.slots slot) (t.slots slot))
    (hgrows : Table.Grows w.table t) : t.Seen slot pc := by
  refine hseen.mono ?_ fun id hid => hgrows.later id (hclaims.lt slot id hid)
  obtain ⟨r, p, hr⟩ := hslot
  rw [hr]
  rfl

/-- Every step keeps the claims in order; live requests stay claimed if the step gives
up none. -/
theorem claimsInv_step (hfill : w.FillInv) (h : w.ClaimsInv) (hstep : w.step action = some w') :
    w'.ClaimsInv ∧ (w.table.LiveInv → w.GivesUpNothing action → w'.table.LiveInv) := by
  have hmove := step_move hfill.index hstep
  have hkept : w.GivesUpNothing action → w'.table.lostChunks = w.table.lostChunks := fun hclean =>
    hclean.2 w' hstep
  cases hmove with
  | edits htable hlocal hsame =>
      obtain ⟨hclaims, hlives⟩ := htable.claims h.claims
      refine ⟨⟨hclaims, fun g slot pc hg => ?_⟩, fun hlive hclean => hlives hlive (hkept hclean)⟩
      rw [hsame] at hg
      exact seen_of_sameFill (h.seen g slot pc hg) h.claims
        (htable.sameFill (hfill.driven g slot pc hg).1) htable.grows
  | tookOver g slot hagent hbefore hfilling hunclaimed htable hnow hothers =>
      rw [htable]
      refine ⟨⟨by rw [htable]; exact h.claims.takeOver slot, fun k s pc hk => ?_⟩,
        fun hlive _ => hlive.update rfl rfl rfl rfl rfl⟩
      by_cases hkg : k = g
      · subst hkg
        rw [hnow] at hk
        cases hk
        trivial
      · rw [hothers k hkg] at hk
        rw [htable]
        refine (h.seen k s pc hk).mono ?_ fun id _ => .refl _
        refine proj_update Slot.claims w.table.slots ?_ s
        rfl
  | finishing g slot pc next deadline choice hagent hbefore hfinish hnow hothers =>
      obtain ⟨hfilling, -⟩ := hfill.driven g slot pc hbefore
      have hseen := h.seen g slot pc hbefore
      have hmove := Table.finishStep_move hfilling hfinish
      -- Other agents drive other slots, whose claims and requests do not move.
      have hothersSeen : (∀ s, s ≠ slot → w'.table.slots s = w.table.slots s) →
          w'.table.requests = w.table.requests → ∀ k s pc', k ≠ g →
          w'.finisher k = some (s, pc') → w'.table.Seen s pc' := by
        intro hslots hrequests k s pc' hk hdrives
        rw [hothers k hk] at hdrives
        have hs : s ≠ slot := by
          rintro rfl
          exact hk (hfill.alone k g s pc' pc hdrives hbefore)
        refine (h.seen k s pc' hdrives).mono (by rw [hslots s hs]) fun id _ => ?_
        rw [hrequests]
        exact .refl _
      -- An agent that leaves its slot drives nothing afterwards.
      have hleft : next = none → (∀ s, s ≠ slot → w'.table.slots s = w.table.slots s) →
          w'.table.requests = w.table.requests →
          ∀ k s pc', w'.finisher k = some (s, pc') → w'.table.Seen s pc' := by
        rintro rfl hslots hrequests k s pc' hk
        refine hothersSeen hslots hrequests k s pc' ?_ hk
        rintro rfl
        rw [hnow] at hk
        cases hk
      cases hnext : next with
      | some pc' =>
          rw [hnext] at hmove hfinish hnow
          have hsame : w'.table = w.table := by
            generalize w'.table = t' at hmove
            cases hmove
            rfl
          refine ⟨⟨by rw [hsame]; exact h.claims, fun k s pc'' hk => ?_⟩,
            fun hlive _ => by rw [hsame]; exact hlive⟩
          by_cases hkg : k = g
          · subst hkg
            rw [hnow] at hk
            cases hk
            exact hseen.finishStep h.claims hfinish
          · exact hothersSeen (fun s _ => by rw [hsame]) (by rw [hsame]) k s pc'' hkg hk
      | none =>
          rw [hnext] at hmove
          generalize htable : w'.table = t' at *
          cases hmove with
          | relinquished hpc =>
              exact ⟨⟨by rw [htable]; exact h.claims.relinquish slot, by
                rw [htable]
                exact hleft hnext (fun s hs => Function.update_of_ne hs _ _) rfl⟩,
                fun hlive _ => hlive.update rfl rfl rfl rfl rfl⟩
          | published result hpc =>
              refine ⟨⟨by rw [htable]; exact h.claims.publish slot result, by
                rw [htable]
                exact hleft hnext (fun s hs => Function.update_of_ne hs _ _) rfl⟩,
                fun hlive hclean => hlive.publish fun id hid hlives => ?_⟩
              rw [hpc] at hseen hbefore
              by_cases hok : result = .ok
              · have hland : (w.table.requests id).outcome = some .ok := hseen hok id hid
                rw [hlives] at hland
                cases hland
              · exact hclean.1 g hagent _ hbefore ⟨hok, id, hid, hlives⟩

theorem claimsInv_start (h : cfg.Accepted) : (World.start cfg h).ClaimsInv where
  claims := .create h
  seen := fun g slot pc hg => by cases g <;> cases hg

/-- Claims are in order in every reachable state. -/
theorem claimsInv_of_reachable {h : cfg.Accepted}
    (hw : Reachable World.step (World.start cfg h) w) : w.ClaimsInv :=
  hw.invariant_of (fun _ => fillInv_of_reachable) (claimsInv_start h)
    fun _ _ _ hfill hinv _ hstep => (claimsInv_step hfill hinv hstep).1

/-- Every live request is claimed in every state of a run that gives up none. -/
theorem liveInv_of_reaches {h : cfg.Accepted}
    (hw : Reaches World.step GivesUpNothing (World.start cfg h) w) : w.table.LiveInv := by
  have hknown : ∀ w, Reaches World.step GivesUpNothing (World.start cfg h) w →
      w.FillInv ∧ w.ClaimsInv := fun w hw =>
    ⟨fillInv_of_reachable hw.reachable, claimsInv_of_reachable hw.reachable⟩
  exact hw.invariant_of hknown (.create h) fun w action w' hinv hlive hclean hstep =>
    (claimsInv_step hinv.1 hinv.2 hstep).2 hlive hclean

/-! ## Quiescence -/

/-- No request has been accepted and not yet delivered. -/
def Quiescent (w : World cfg) : Prop := ∀ id < w.table.requestCount, ¬ (w.table.requests id).Live

/-- No request accepted through this binding awaits its delivery. -/
def BindingQuiescent (w : World cfg) (b : BindingId) : Prop :=
  ∀ id < w.table.requestCount, (w.table.requests id).binding = b → ¬ (w.table.requests id).Live

/-- What a zero count promises. -/
structure DrainedIsQuiescent (w : World cfg) : Prop where
  /-- No fill in flight: no live request. -/
  table : w.table.inFlight = 0 → w.Quiescent
  /-- No fill in flight on the retiring binding: none of its requests is live. -/
  binding : ∀ b, w.table.retiringBinding = some b → (w.table.bindings b).inFlight = 0 →
    w.BindingQuiescent b
  /-- A drain that returns success leaves no live request. -/
  drain : ∀ thread choice w' deadline pc, w.threads thread = .draining deadline pc →
    w.step (.advance thread choice) = some w' →
    w'.threads thread = .draining deadline (.returned .ok) → w'.Quiescent
  /-- An `invalidate` that discards the retiring binding finds none of its requests live. -/
  discard : ∀ creation generation sources resolver b, w.table.retiringBinding = some b →
    (w.table.invalidate creation generation sources resolver).2.retiringBinding ≠ some b →
    w.BindingQuiescent b

/-- A successful drain has seen a zero count. -/
theorem drainStep_ok {t : Table cfg} {deadline : Bool} {choice : Choice} {pc : DrainPc}
    (h : drainStep t deadline choice pc = some (.returned .ok)) : t.inFlight = 0 := by
  unfold drainStep at h
  split at h
  · split_ifs at h with hzero
    · exact hzero
    · cases h
  · dsimp only at h
    split_ifs at h with _ hzero
    · exact hzero
    · cases h
    · cases h
  · cases h

theorem drainedIsQuiescent (hbook : w.table.BookInv) (hclaims : w.table.ClaimInv)
    (hlive : w.table.LiveInv) : w.DrainedIsQuiescent := by
  have htable : w.table.inFlight = 0 → w.Quiescent := by
    intro hzero id hid hlives
    obtain ⟨s, hs⟩ := hlive id hid hlives
    exact hbook.not_filling hzero s (hclaims.filling s id hs)
  have hbinding : ∀ b, (w.table.bindings b).inFlight = 0 → w.BindingQuiescent b := by
    intro b hzero id hid hb hlives
    obtain ⟨s, hs⟩ := hlive id hid hlives
    refine hbook.not_filling_of_binding hzero s (hclaims.filling s id hs) ?_
    rw [← hclaims.binding s id hs, hb]
  refine ⟨htable, fun b _ => hbinding b, ?_, ?_⟩
  · intro thread choice w' deadline pc hpc hstep hreturned
    unfold step at hstep
    split_ifs at hstep
    have hstep : w.advance thread choice = some w' := hstep
    unfold advance at hstep
    rw [hpc] at hstep
    obtain ⟨pc', hdrain, rfl⟩ := Option.map_eq_some_iff.mp hstep
    have hpc' : Function.update w.threads thread (.draining deadline pc') thread =
        .draining deadline (.returned .ok) := hreturned
    rw [Function.update_self] at hpc'
    cases hpc'
    exact htable (drainStep_ok hdrain)
  · intro creation generation sources resolver b hretiring hdiscarded
    apply hbinding
    by_contra hbusy
    refine hdiscarded ?_
    unfold Table.invalidate
    rw [if_pos (show w.table.RetiringBusy from ⟨b, hretiring, hbusy⟩)]
    split_ifs <;> exact hretiring

end World

end TieredCache
