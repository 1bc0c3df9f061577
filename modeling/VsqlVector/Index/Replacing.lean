/-
# Replacing the links of a node

`replace_neighbours` goes through six steps. Here each is followed in turn:
dropped links are flagged (A), taken back on the far side or moved to the
node's overflow chain (B), the new links are staged, those the chain already
has as confirmed ones (C), the list is rewritten (D), the promoted links leave
the chain (E) and the others are landed (F). Before the last step the node's
record is `Pending`, so `linkNeighboursLocked_links` brings the level to rest.

Key definitions: `DropWalk`, `Staged`, `Replaced`.
Key theorems: `dropNeighbourLink_spec`, `fillSlots_spec`, `replaceNeighbours_staged`, `replaceNeighbours_replaced`.
-/
import VsqlVector.Index.Linking

namespace VsqlVector
namespace Hnsw

open LevelStore LevelProg

variable {w x b : ℕ} {V X : Set ℕ}

/-- The record of one of the others after it no longer names `x`. -/
theorem Sound.shrink {s s' : LevelStore} (h : Sound w s b) (ht : Touch b s s')
    (hnames : (s.names b).Perm (x :: s'.names b)) (hl : ∀ n ∈ s'.links b, n ∈ s.links b)
    (hc : ∀ n ∈ s'.chained b, n ∈ s.chained b) : Sound w s' b where
  live := ht.live_iff.mpr h.live
  width := (ht.length_slots b).trans h.width
  outgoing n hn := h.outgoing n (hl n hn)
  owner n hn := (ht.ownerOf _).trans (h.owner n (hl n hn))
  flagged n hn := h.flagged n (hc n hn)
  nodup := (List.nodup_cons.mp (hnames.nodup_iff.mp h.nodup)).2
  irrefl hb := h.irrefl (hnames.mem_iff.mpr (List.mem_cons_of_mem _ hb))

namespace IndexGraph

variable {c : LevelCtx} {s s' : LevelState} {node : Node} {d : NID} {keeps : Bool}

/-- Clearing the chain slot in which a node names `x`. -/
theorem clearLink_cut (hq : s.Quiet) (hs : s.Chains) (ha : Around w s.toLevelStore V x X) (hb : b ∈ V)
    {link : LinkSlot} {n : NID} (hf : FoundIn s.toLevelStore b link n) (hn : n.ref = x)
    (h : clearLink link s = (.ok (), s')) :
    s'.Quiet ∧ Touch b s.toLevelStore s'.toLevelStore ∧ s'.slots b = s.slots b ∧
      Around w s'.toLevelStore V x (X \ {b}) ∧ SameBut x s.toLevelStore s'.toLevelStore := by
  obtain ⟨hq', ht, hsl, -, -, hperm⟩ := clearLink_spec hq hs (ha.sound b hb).live hf h
  have hl : s.links b = s'.links b := by rw [links, links, hsl]
  have hnames : (s.names b).Perm (x :: s'.names b) := hn ▸ names_perm_of_chained hl hperm
  have hother := hperm.symm.filter fun n => n.ref ≠ x
  rw [List.filter_cons_of_neg (by simpa using hn)] at hother
  refine ⟨hq', ht, hsl, ha.cut hb ht ((ha.sound b hb).shrink ht hnames (fun n hn => hl ▸ hn) ?_) hnames,
    .of_cut ht (by rw [otherLinks, otherLinks, hl]) hother⟩
  exact fun n hn => hperm.mem_iff.mpr (List.mem_cons_of_mem _ hn)

/-- The slot that names `nid` holds a link to it. -/
theorem slotNames_iff {nid : NID} (hnid : nid.incoming = false) {o : Option Node} :
    slotNames nid o = true ↔ ∃ n, o = some n ∧ n.nid.ref = nid.ref := by
  rcases o with _ | n
  · simp [slotNames]
  · simp [slotNames, NID.clearIncoming_eq_iff hnid]

/-! ### Step B -/

/-- `drop_neighbour_link` on one of the others: it goes on naming `x` exactly if
it keeps a link of its own, and its list is as it was. -/
theorem dropNeighbourLink_spec (hq : s.Quiet) (hs : s.Chains) (ha : Around w s.toLevelStore V x X)
    (hd : d.ref ∈ V) (hx : node.nid = ⟨x, false⟩)
    (h : dropNeighbourLink node d s = (.ok keeps, s')) :
    s'.Quiet ∧ Touch d.ref s.toLevelStore s'.toLevelStore ∧
      Around w s'.toLevelStore V x (if keeps then X else X \ {d.ref}) ∧ s'.slots d.ref = s.slots d.ref ∧
      (keeps = true → ∃ n ∈ s.links d.ref, n.nid.ref = x) ∧ SameBut x s.toLevelStore s'.toLevelStore := by
  have hsound := ha.sound d.ref hd
  obtain ⟨e, he⟩ := hsound.live.exists_entry
  have hnid : node.nid.incoming = false := by rw [hx]
  rw [dropNeighbourLink, Prog.bind_returns] at h
  obtain ⟨y, s₁, hy, h⟩ := h
  rw [attempt_fetch_returns hq] at hy
  obtain ⟨rfl, rfl⟩ := hy
  simp only [he, Option.elim_some] at h
  -- nothing is cleared if the chain does not name `x` either
  have hrest : (∀ n ∈ s.links d.ref, n.nid.ref ≠ x) →
      (do let link ← findOverflowLink e.overflow node.nid
          let _ ← clearFound link
          pure false : LevelProg Bool) s = (.ok keeps, s') →
      s'.Quiet ∧ Touch d.ref s.toLevelStore s'.toLevelStore ∧
        Around w s'.toLevelStore V x (if keeps then X else X \ {d.ref}) ∧ s'.slots d.ref = s.slots d.ref ∧
        (keeps = true → ∃ n ∈ s.links d.ref, n.nid.ref = x) ∧ SameBut x s.toLevelStore s'.toLevelStore := by
    intro hno h
    rw [Prog.bind_returns] at h
    obtain ⟨r, s₂, hfind, h⟩ := h
    obtain ⟨rfl, hsome, hnone⟩ := findOverflowLink_spec hq hs hsound.live (head_of_entry he) hfind
    rcases r with _ | link
    · simp only [clearFound, Prog.pure_bind, Prog.pure_apply, Prod.mk.injEq, Except.ok.injEq] at h
      obtain ⟨rfl, rfl⟩ := h
      refine ⟨hq, .refl hs, ?_, rfl, by simp, .refl _ _⟩
      have hnot : d.ref ∉ X := fun hX => by
        rcases mem_names.mp (ha.named _ hX).2 with ⟨n, hn, hnx⟩ | ⟨n, hn, hnx⟩
        · exact hno n hn hnx
        · refine hnone rfl n hn ?_
          rw [hx, NID.clearIncoming, hnx]
      simpa [Set.sdiff_singleton_eq_self hnot] using ha
    · obtain ⟨n, hf, hn⟩ := hsome link rfl
      simp only [clearFound] at h
      rw [Prog.bind_returns] at h
      obtain ⟨_, s₃, hcl, h⟩ := h
      rw [Prog.bind_returns] at hcl
      obtain ⟨_, s₄, hcl, hp⟩ := hcl
      simp only [Prog.pure_apply, Prod.mk.injEq, Except.ok.injEq] at hp h
      obtain ⟨rfl, rfl⟩ := h
      obtain ⟨-, rfl⟩ := hp
      have hnx : n.ref = x := by
        have := congrArg NID.ref hn
        simpa [hx] using this
      obtain ⟨h1, h2, h3, h4, h5⟩ := clearLink_cut hq hs ha hd hf hnx hcl
      exact ⟨h1, h2, by simpa using h4, h3, by simp, h5⟩
  rw [dropFrom] at h
  rcases hfind : e.neighbours.zipIdx.find? fun w => slotNames node.nid w.1 with _ | ⟨o, i⟩
  · simp only [hfind] at h
    refine hrest (fun n hn hnx => ?_) h
    rw [links, slots_of_entry he, List.reduceOption_mem_iff] at hn
    obtain ⟨i, hi, hge⟩ := List.getElem_of_mem hn
    have hmem : (some n, i) ∈ e.neighbours.zipIdx :=
      List.mk_mem_zipIdx_iff_getElem?.mpr (hge ▸ List.getElem?_eq_getElem hi)
    refine List.find?_eq_none.mp hfind _ hmem ((slotNames_iff hnid).mpr ⟨n, rfl, ?_⟩)
    rw [hnx, hx]
  · have hp := List.find?_some hfind
    obtain ⟨n, rfl, hnx⟩ := (slotNames_iff hnid).mp hp
    have hmem : n ∈ s.links d.ref := by
      rw [links, slots_of_entry he, List.reduceOption_mem_iff]
      exact List.fst_mem_of_mem_zipIdx (List.mem_of_find?_eq_some hfind)
    simp only [hfind, hsound.outgoing n hmem, Bool.false_eq_true, if_false, Prog.pure_apply,
      Prod.mk.injEq, Except.ok.injEq] at h
    obtain ⟨rfl, rfl⟩ := h
    exact ⟨hq, .refl hs, ha, rfl, fun _ => ⟨n, hmem, by rw [hnx, hx]⟩, .refl _ _⟩

/-- The targets of the links in `slots` that the updated list does not name. -/
def droppedRefs (updated : List Node) (slots : List (Option Node)) : List ℕ :=
  (slots.reduceOption.filter fun n => !inUpdated updated n).map fun n => n.nid.ref

theorem droppedRefs_append (updated : List Node) (l₁ l₂ : List (Option Node)) :
    droppedRefs updated (l₁ ++ l₂) = droppedRefs updated l₁ ++ droppedRefs updated l₂ := by
  simp [droppedRefs, List.reduceOption_append]

/-- Step B after the slots `done`: the dropped neighbours `K` keep a link of their
own and are in the chain of `x`, the other dropped ones no longer name `x`. -/
structure DropWalk (w : ℕ) (s₁ : LevelState) (V : Set ℕ) (x : ℕ) (X : Set ℕ) (updated : List Node)
    (s : LevelState) (done : List (Option Node)) (K : List ℕ) : Prop where
  rewired : Rewired s₁ s
  around : Around w s.toLevelStore V x {b | b ∈ X ∧ (b ∈ droppedRefs updated done → b ∈ K)}
  slots : s.slots x = s₁.slots x
  chained : (s.chained x).Perm (K.map (fun b => ⟨b, true⟩) ++ s₁.chained x)
  head : s₁.head x = none ∨ s.head x = s₁.head x
  kept : K.Sublist (droppedRefs updated done)
  same : ∀ b, b ≠ x → s.slots b = s₁.slots b
  keeping : ∀ b ∈ K, ∃ n ∈ s₁.links b, n.nid.ref = x
  others : SameBut x s₁.toLevelStore s.toLevelStore

theorem DropWalk.step (hcap : 0 < c.overflowCapacity) {s₁ : LevelState} (hx : node.nid = ⟨x, false⟩)
    {updated : List Node} {slots done rest : List (Option Node)} {o : Option Node} {K : List ℕ}
    (hsplit : slots = done ++ o :: rest) (hlive : s₁.Live x)
    (hnd : (slots.reduceOption.map fun n => n.nid.ref).Nodup)
    (hX : ∀ n ∈ slots.reduceOption, n.nid.ref ∈ X ∧ n.nid.ref ∈ V)
    (h : DropWalk w s₁ V x X updated s done K) (hrun : dropSlot c node updated o s = (.ok (), s')) :
    ∃ K', DropWalk w s₁ V x X updated s' (done ++ [o]) K' := by
  -- a slot that is empty or named by the updated list is passed over
  have hskip (hno : droppedRefs updated [o] = []) : DropWalk w s₁ V x X updated s (done ++ [o]) K := by
    have hd : droppedRefs updated (done ++ [o]) = droppedRefs updated done := by
      rw [droppedRefs_append, hno, List.append_nil]
    exact ⟨h.rewired, hd ▸ h.around, h.slots, h.chained, h.head, hd ▸ h.kept, h.same, h.keeping, h.others⟩
  rcases o with _ | n
  · simp only [dropSlot, Prog.pure_apply, Prod.mk.injEq, true_and] at hrun
    subst hrun
    exact ⟨K, hskip (by simp [droppedRefs])⟩
  · rcases hu : inUpdated updated n with _ | _
    · simp only [dropSlot, hu, Bool.false_eq_true, if_false] at hrun
      have hdone : droppedRefs updated (done ++ [some n]) = droppedRefs updated done ++ [n.nid.ref] := by
        rw [droppedRefs_append, show droppedRefs updated [some n] = [n.nid.ref] by
          simp [droppedRefs, List.reduceOption_cons_of_some, hu]]
      have hmem : n ∈ slots.reduceOption := by simp [hsplit, List.reduceOption_append,
        List.reduceOption_cons_of_some]
      have hnot : n.nid.ref ∉ droppedRefs updated done := by
        intro hm
        obtain ⟨m, hm, he⟩ := List.mem_map.mp hm
        rw [hsplit, List.reduceOption_append, List.reduceOption_cons_of_some, List.map_append,
          List.nodup_append] at hnd
        exact hnd.2.2 m.nid.ref (List.mem_map_of_mem (List.mem_of_mem_filter hm)) n.nid.ref (by simp) he
      rw [Prog.bind_returns] at hrun
      obtain ⟨keeps, s₂, hdrop, hrun⟩ := hrun
      obtain ⟨hq₂, ht₂, hA₂, hself, hkeeps, hbut₂⟩ := dropNeighbourLink_spec h.rewired.quiet h.rewired.chains h.around
        (show (NID.clearIncoming n.nid).ref ∈ V from (hX n hmem).2) hx hdrop
      have hne : x ≠ n.nid.ref := fun he => h.around.out (he ▸ (hX n hmem).2)
      have hr₂ : Rewired s₁ s₂ := h.rewired.trans (.of_touch hq₂ ht₂)
      have hlive' : s.Live x := (h.rewired.live_iff x).mpr hlive
      have hsl₂ : s₂.slots x = s₁.slots x := (ht₂.slots x hne).trans h.slots
      have hch₂ : s₂.chained x = s.chained x := ht₂.chained hlive' hne
      have hsame₂ : ∀ b, b ≠ x → s₂.slots b = s₁.slots b := fun b hb => by
        refine Eq.trans ?_ (h.same b hb)
        by_cases hbn : b = n.nid.ref
        · rw [hbn]
          exact hself
        · exact ht₂.slots b hbn
      have hhead₂ : s₁.head x = none ∨ s₂.head x = s₁.head x := by
        rw [ht₂.head x hne]
        exact h.head
      rcases keeps with _ | _
      · simp only [Bool.false_eq_true, if_false, Prog.pure_apply, Prod.mk.injEq, true_and] at hrun
        subst hrun
        refine ⟨K, hr₂, ?_, hsl₂, hch₂ ▸ h.chained, hhead₂, ?_, hsame₂, h.keeping, h.others.trans hbut₂⟩
        · convert hA₂ using 1
          ext b
          simp only [hdone, Set.mem_ofPred_eq, List.mem_append, List.mem_singleton, if_false,
            Bool.false_eq_true, Set.mem_sdiff, Set.mem_singleton_iff, NID.clearIncoming_ref]
          constructor
          · rintro ⟨h1, h2⟩
            refine ⟨⟨h1, fun h3 => h2 (.inl h3)⟩, ?_⟩
            rintro rfl
            exact hnot (h.kept.subset (h2 (.inr rfl)))
          · rintro ⟨⟨h1, h2⟩, h3⟩
            exact ⟨h1, fun h4 => h4.elim h2 fun h5 => absurd h5 h3⟩
        · rw [hdone]
          exact h.kept.trans (List.sublist_append_left _ _)
      · simp only [if_true] at hrun
        rw [Prog.bind_returns] at hrun
        obtain ⟨e, s₃, he, hrun⟩ := hrun
        rw [fetch_returns hq₂] at he
        obtain ⟨he, rfl⟩ := he
        have hnx : node.nid.ref = x := by rw [hx]
        have hlive₂ : s₂.Live node.nid.ref := by
          rw [hnx]
          exact (hr₂.live_iff x).mpr hlive
        obtain ⟨hq₃, ht₃, hsl₃, hch₃, hh₃⟩ :=
          addOverflowIncoming_spec hcap hq₂ ht₂.chains hlive₂ (head_of_entry he) hrun
        rw [hnx] at ht₃ hsl₃ hch₃ hh₃
        refine ⟨K ++ [n.nid.ref], hr₂.trans (.of_touch hq₃ ht₃), ?_, hsl₃.trans hsl₂, ?_, ?_, ?_,
          fun b hb => (ht₃.slots b hb).trans (hsame₂ b hb), fun b hb => ?_,
          (h.others.trans hbut₂).trans (.of_touch ht₃)⟩
        · convert hA₂.touch ht₃ using 1
          ext b
          simp only [hdone, Set.mem_ofPred_eq, List.mem_append, List.mem_singleton, if_true]
          constructor
          · rintro ⟨h1, h2⟩
            refine ⟨h1, fun h3 => (h2 (.inl h3)).resolve_right ?_⟩
            rintro rfl
            exact hnot h3
          · rintro ⟨h1, h2⟩
            exact ⟨h1, fun h3 => h3.imp h2 id⟩
        · refine hch₃.trans ?_
          rw [hch₂, List.map_append, List.append_assoc]
          exact (h.chained.cons _).trans List.perm_middle.symm
        · rcases hhead₂ with hh | hh
          · exact .inl hh
          · rcases hh₃ with h' | h'
            · exact .inl (hh ▸ h')
            · exact .inr (h'.trans hh)
        · rw [hdone]
          exact h.kept.append (List.Sublist.refl _)
        · rcases List.mem_append.mp hb with hb | hb
          · exact h.keeping b hb
          · rw [List.mem_singleton.mp hb]
            obtain ⟨m, hm, hmx⟩ := hkeeps rfl
            have hold : s.links n.nid.ref = s₁.links n.nid.ref := by rw [links, links, h.same _ (Ne.symm hne)]
            exact ⟨m, hold ▸ hm, hmx⟩
    · simp only [dropSlot, hu, if_true, Prog.pure_apply, Prod.mk.injEq, true_and] at hrun
      subst hrun
      exact ⟨K, hskip (by simp [droppedRefs, hu, List.reduceOption_cons_of_some])⟩

/-! ### Step A -/

/-- A dropped link, flagged. -/
def demote (updated : List Node) : Option Node → Option (Option Node)
  | some n => if n.nid.incoming || inUpdated updated n then none
    else some (some ⟨n.nid.setIncoming, n.vid⟩)
  | none => none

theorem demoted_eq (updated : List Node) (slots : List (Option Node)) :
    demoted updated slots =
      slots.zipIdx.filterMap fun w => (demote updated w.1).map fun v => (w.2, v) := by
  refine List.filterMap_congr fun w _ => ?_
  rcases w with ⟨_ | n, i⟩
  · rfl
  · simp only [demote]
    split <;> rfl

theorem demote_keep {updated : List Node} {n : Node} (h : inUpdated updated n = true) :
    (demote updated (some n)).getD (some n) = some n := by
  simp [demote, h]

/-! ### Step C -/

/-- The links of the updated list that are not in the node's list yet. -/
def freshLinks (slots : List (Option Node)) (updated : List Node) : List Node :=
  updated.filter fun t => !slots.any (slotNames t.nid)

/-- How a new link is staged: as a confirmed one if the chain has it. -/
def stage (chained : List ℕ) (t : Node) : Node :=
  if t.nid.ref ∈ chained then t else ⟨t.nid.setIncoming, t.vid⟩

theorem freshLinks_append (slots : List (Option Node)) (l₁ l₂ : List Node) :
    freshLinks slots (l₁ ++ l₂) = freshLinks slots l₁ ++ freshLinks slots l₂ := by
  simp [freshLinks]

/-- Step C: the staged links, and for each one the chain has the slot it is in. -/
theorem stageLinks_spec {slots : List (Option Node)} {head : Option NID} {updated : List Node}
    (hfind : ∀ t ∈ updated, ∀ r s', findOverflowLink head t.nid s = (.ok r, s') → s' = s ∧
      (∀ link, r = some link → ∃ n, FoundIn s.toLevelStore x link n ∧ n.clearIncoming = t.nid) ∧
      (r = none → t.nid.ref ∉ (s.chained x).map NID.ref)) {acc : List Node × List LinkSlot}
    (h : updated.foldlM (stageLink slots head) ([], []) s = (.ok acc, s')) :
    s' = s ∧ acc.1 = (freshLinks slots updated).map (stage ((s.chained x).map NID.ref)) ∧
      ∃ ns, List.Forall₂ (FoundIn s.toLevelStore x) acc.2 ns ∧
        ns.map NID.ref = ((freshLinks slots updated).filter
          fun t => t.nid.ref ∈ (s.chained x).map NID.ref).map fun t => t.nid.ref := by
  have := Prog.foldlM_returns (fun rest acc t => t = s ∧ ∃ done, updated = done ++ rest ∧
      acc.1 = (freshLinks slots done).map (stage ((s.chained x).map NID.ref)) ∧
      ∃ ns, List.Forall₂ (FoundIn s.toLevelStore x) acc.2 ns ∧
        ns.map NID.ref = ((freshLinks slots done).filter
          fun t => t.nid.ref ∈ (s.chained x).map NID.ref).map fun t => t.nid.ref)
    ?_ updated ([], []) s acc s' ⟨rfl, [], rfl, rfl, [], .nil, rfl⟩ h
  · obtain ⟨rfl, done, hdone, h1, h2⟩ := this
    rw [List.append_nil] at hdone
    exact ⟨rfl, hdone ▸ h1, hdone ▸ h2⟩
  rintro t rest acc st acc' st' ⟨rfl, done, hup, hst, ns, hns, hrefs⟩ hrun
  refine (?_ : st' = st ∧ _).imp id fun h' => ⟨done ++ [t], by simp [hup], h'⟩
  rw [freshLinks_append]
  rw [stageLink] at hrun
  rcases ha : slots.any (slotNames t.nid) with _ | _
  · simp only [ha, Bool.false_eq_true, if_false] at hrun
    rw [Prog.bind_returns] at hrun
    obtain ⟨r, s₂, hf, hrun⟩ := hrun
    obtain ⟨rfl, hsome, hnone⟩ := hfind t (by simp [hup]) r s₂ hf
    have hfresh : freshLinks slots [t] = [t] := by simp [freshLinks, ha]
    rcases r with _ | link
    · simp only [Prog.pure_apply, Prod.mk.injEq, Except.ok.injEq] at hrun
      obtain ⟨rfl, rfl⟩ := hrun
      have hnot := hnone rfl
      refine ⟨rfl, ?_, ns, hns, ?_⟩
      · simp [hfresh, hst, stage, hnot]
      · rw [hrefs, hfresh, List.filter_append, List.filter_singleton]
        simp [hnot]
    · simp only [Prog.pure_apply, Prod.mk.injEq, Except.ok.injEq] at hrun
      obtain ⟨rfl, rfl⟩ := hrun
      obtain ⟨n, hfn, hn⟩ := hsome link rfl
      have hnref : n.ref = t.nid.ref := by
        have := congrArg NID.ref hn
        simpa using this
      have hin : t.nid.ref ∈ (s₂.chained x).map NID.ref := hnref ▸ List.mem_map_of_mem hfn.mem_chained
      refine ⟨rfl, ?_, ns ++ [n], ?_, ?_⟩
      · simp only [hfresh, hst, List.map_append, List.map_cons, List.map_nil, stage, if_pos hin]
      · exact List.rel_append hns (.cons hfn .nil)
      · rw [List.map_append, hrefs, hfresh, List.filter_append, List.filter_singleton]
        simp [hin, hnref]
  · simp only [ha, if_true, Prog.pure_apply, Prod.mk.injEq, Except.ok.injEq] at hrun
    obtain ⟨rfl, rfl⟩ := hrun
    have hfresh : freshLinks slots [t] = [] := by simp [freshLinks, ha]
    refine ⟨rfl, ?_, ns, hns, ?_⟩
    · rw [hfresh, List.append_nil]
      exact hst
    · rw [hfresh, List.append_nil]
      exact hrefs

/-! ### Step D -/

/-- Step D keeps the links the updated list names and finds a slot for each
staged one, if there are slots enough. -/
theorem fillSlots_spec {updated : List Node} {f : Option Node → Option Node} (hnone : f none = none)
    (hkeep : ∀ n, inUpdated updated n = true → f (some n) = some n) :
    ∀ (slots : List (Option Node)) (staged : List Node) (pre : List (Option Node)),
      staged.length + (slots.reduceOption.filter (inUpdated updated)).length ≤ slots.length →
      ∃ res, writeSlots (fillSlots updated pre.length slots staged) (pre ++ slots.map f) = pre ++ res ∧
        res.reduceOption.Perm (slots.reduceOption.filter (inUpdated updated) ++ staged)
  | [], staged, pre, hlen => by
    obtain rfl : staged = [] := List.eq_nil_of_length_eq_zero (by simpa using hlen)
    exact ⟨[], by simp [fillSlots], by simp⟩
  | o :: slots, staged, pre, hlen => by
    have hset (v : Option Node) : (pre ++ f o :: slots.map f).set pre.length v =
        (pre ++ [v]) ++ slots.map f := by
      rw [List.set_append_right _ _ (le_refl _)]
      simp
    have hskip : pre ++ f o :: slots.map f = (pre ++ [f o]) ++ slots.map f := by simp
    have hpre (v : Option Node) : pre.length + 1 = (pre ++ [v]).length := by simp
    have hfin {v : Option Node} {res : List (Option Node)} {ws : List (ℕ × Option Node)}
        (h : writeSlots ws ((pre ++ [v]) ++ slots.map f) = (pre ++ [v]) ++ res) :
        writeSlots ws ((pre ++ [v]) ++ slots.map f) = pre ++ v :: res := by simpa using h
    rcases o with _ | n
    · rw [List.reduceOption_cons_of_none] at hlen ⊢
      rcases staged with _ | ⟨v, vs⟩
      · obtain ⟨res, h1, h2⟩ := fillSlots_spec hnone hkeep slots [] (pre ++ [f none]) (by
          have := List.length_filter_le (inUpdated updated) slots.reduceOption
          have := List.reduceOption_length_le slots
          simp only [List.length_nil]
          omega)
        refine ⟨f none :: res, ?_, ?_⟩
        · rw [fillSlots, List.map_cons, hskip, hpre (f none)]
          exact hfin h1
        · rw [hnone, List.reduceOption_cons_of_none]
          exact h2
      · obtain ⟨res, h1, h2⟩ := fillSlots_spec hnone hkeep slots vs (pre ++ [some v]) (by
          simp only [List.length_cons] at hlen
          omega)
        refine ⟨some v :: res, ?_, ?_⟩
        · rw [fillSlots, List.map_cons, writeSlots_cons, hset, hpre (some v)]
          exact hfin h1
        · rw [List.reduceOption_cons_of_some]
          exact (h2.cons v).trans List.perm_middle.symm
    · rw [List.reduceOption_cons_of_some] at hlen ⊢
      rcases hu : inUpdated updated n with _ | _
      · rw [List.filter_cons_of_neg (by simp [hu])] at hlen ⊢
        rcases staged with _ | ⟨v, vs⟩
        · obtain ⟨res, h1, h2⟩ := fillSlots_spec hnone hkeep slots [] (pre ++ [none]) (by
            have := List.length_filter_le (inUpdated updated) slots.reduceOption
            have := List.reduceOption_length_le slots
            simp only [List.length_nil]
            omega)
          refine ⟨none :: res, ?_, ?_⟩
          · rw [fillSlots, List.map_cons]
            simp only [hu, Bool.false_eq_true, if_false]
            rw [writeSlots_cons, hset, hpre none]
            exact hfin h1
          · rw [List.reduceOption_cons_of_none]
            exact h2
        · obtain ⟨res, h1, h2⟩ := fillSlots_spec hnone hkeep slots vs (pre ++ [some v]) (by
            simp only [List.length_cons] at hlen
            omega)
          refine ⟨some v :: res, ?_, ?_⟩
          · rw [fillSlots, List.map_cons]
            simp only [hu, Bool.false_eq_true, if_false]
            rw [writeSlots_cons, hset, hpre (some v)]
            exact hfin h1
          · rw [List.reduceOption_cons_of_some]
            exact (h2.cons v).trans List.perm_middle.symm
      · rw [List.filter_cons_of_pos hu] at hlen ⊢
        obtain ⟨res, h1, h2⟩ := fillSlots_spec hnone hkeep slots staged (pre ++ [f (some n)]) (by
          simp only [List.length_cons] at hlen
          omega)
        refine ⟨f (some n) :: res, ?_, ?_⟩
        · simp only [fillSlots, hu, if_true, List.map_cons]
          rw [hskip, hpre (f (some n))]
          exact hfin h1
        · rw [hkeep n hu, List.reduceOption_cons_of_some]
          exact h2.cons n

/-! ### Step E -/

/-- Step E takes the promoted links out of the chain. -/
theorem clearLinks_spec : ∀ {links : List LinkSlot} {ns : List NID} {s s' : LevelState}, s.Quiet →
    s.Chains → s.Live x → List.Forall₂ (FoundIn s.toLevelStore x) links ns → ns.Nodup →
    links.forM clearLink s = (.ok (), s') →
    s'.Quiet ∧ Touch x s.toLevelStore s'.toLevelStore ∧ s'.slots x = s.slots x ∧
      (s.chained x).Perm (ns ++ s'.chained x)
  | [], [], s, s', hq, hs, _, _, _, h => by
    obtain rfl := Prog.forM_nil_returns.mp h
    exact ⟨hq, .refl hs, rfl, .refl _⟩
  | link :: links, n :: ns, s, s', hq, hs, hx, .cons hf hfs, hnd, h => by
    obtain ⟨s₁, h1, h2⟩ := Prog.forM_cons_returns.mp h
    obtain ⟨hq₁, ht₁, hsl₁, hch₁, hcells₁, hp₁⟩ := clearLink_spec hq hs hx hf h1
    obtain ⟨hn, hnd⟩ := List.nodup_cons.mp hnd
    -- another promoted link is in another slot, which is left alone
    have hkeep : ∀ link' n', FoundIn s.toLevelStore x link' n' → n' ∈ ns →
        FoundIn s₁.toLevelStore x link' n' := fun link' n' hf' hn' => by
      refine ⟨hf'.kind, hch₁ ▸ hf'.mem, ?_⟩
      rw [hcells₁]
      split
      · rename_i hrec
        rw [List.getElem?_set_ne]
        · exact hf'.slot
        · intro hslot
          have h3 := hf'.slot
          rw [hrec, ← hslot, hf.slot] at h3
          simp only [Option.some.injEq] at h3
          exact hn (h3 ▸ hn')
      · exact hf'.slot
    have hfs₁ : List.Forall₂ (FoundIn s₁.toLevelStore x) links ns := by
      refine List.forall₂_iff_get.mpr ⟨hfs.length_eq, fun i hi hi' => ?_⟩
      exact hkeep _ _ ((List.forall₂_iff_get.mp hfs).2 i hi hi') (List.get_mem _ _)
    obtain ⟨hq₂, ht₂, hsl₂, hp₂⟩ := clearLinks_spec hq₁ ht₁.chains (ht₁.live_iff.mpr hx) hfs₁ hnd h2
    exact ⟨hq₂, ht₁.trans ht₂, hsl₂.trans hsl₁, hp₁.trans (hp₂.cons n)⟩

/-! ### Before the last step -/

theorem inUpdated_iff {updated : List Node} (hout : ∀ u ∈ updated, u.nid.incoming = false) {n : Node} :
    inUpdated updated n = true ↔ n.nid.ref ∈ updated.map fun u => u.nid.ref := by
  simp only [inUpdated, List.any_eq_true, beq_iff_eq, List.mem_map]
  refine exists_congr fun u => and_congr_right fun hu => ?_
  rw [eq_comm, NID.clearIncoming_eq_iff (hout u hu), eq_comm]

/-- The links of the node that the updated list names. -/
def keptLinks (slots : List (Option Node)) (updated : List Node) : List Node :=
  slots.reduceOption.filter (inUpdated updated)

section Members

variable {updated : List Node} (hout : ∀ u ∈ updated, u.nid.incoming = false)

include hout

theorem mem_droppedRefs {slots : List (Option Node)} :
    b ∈ droppedRefs updated slots ↔
      b ∈ slots.reduceOption.map (fun n => n.nid.ref) ∧ b ∉ updated.map fun u => u.nid.ref := by
  simp only [droppedRefs, List.mem_map, List.mem_filter, Bool.not_eq_true', ← Bool.not_eq_true, inUpdated_iff hout]
  exact ⟨fun ⟨n, ⟨hn, hnU⟩, he⟩ => ⟨⟨n, hn, he⟩, he ▸ hnU⟩, fun ⟨⟨n, hn, he⟩, hnU⟩ => ⟨n, ⟨hn, he ▸ hnU⟩, he⟩⟩

theorem mem_keptRefs {slots : List (Option Node)} :
    b ∈ (keptLinks slots updated).map (fun n => n.nid.ref) ↔
      b ∈ slots.reduceOption.map (fun n => n.nid.ref) ∧ b ∈ updated.map fun u => u.nid.ref := by
  simp only [keptLinks, List.mem_map, List.mem_filter, inUpdated_iff hout]
  exact ⟨fun ⟨n, ⟨hn, hu⟩, he⟩ => ⟨⟨n, hn, he⟩, he ▸ hu⟩, fun ⟨⟨n, hn, he⟩, hu⟩ => ⟨n, ⟨hn, he ▸ hu⟩, he⟩⟩

theorem present_iff {slots : List (Option Node)} {t : Node} (ht : t ∈ updated) :
    slots.any (slotNames t.nid) = true ↔ t.nid.ref ∈ slots.reduceOption.map fun n => n.nid.ref := by
  rw [List.any_eq_true, List.mem_map]
  constructor
  · rintro ⟨o, ho, hn⟩
    obtain ⟨n, rfl, he⟩ := (slotNames_iff (hout t ht)).mp hn
    exact ⟨n, List.reduceOption_mem_iff.mpr ho, he⟩
  · rintro ⟨n, hn, he⟩
    exact ⟨some n, List.reduceOption_mem_iff.mp hn, (slotNames_iff (hout t ht)).mpr ⟨n, rfl, he⟩⟩

theorem mem_freshLinks {slots : List (Option Node)} {t : Node} :
    t ∈ freshLinks slots updated ↔ t ∈ updated ∧ t.nid.ref ∉ slots.reduceOption.map fun n => n.nid.ref := by
  rw [freshLinks, List.mem_filter, Bool.not_eq_true', ← Bool.not_eq_true]
  exact and_congr_right fun ht => not_congr (present_iff hout ht)

/-- There is room in the list for the updated one. -/
theorem length_links_le {slots : List (Option Node)}
    (hnd : (slots.reduceOption.map fun n => n.nid.ref).Nodup) :
    (freshLinks slots updated).length + (keptLinks slots updated).length ≤ updated.length := by
  have h1 : (keptLinks slots updated).length ≤ (updated.filter fun t => slots.any (slotNames t.nid)).length := by
    have hsub : ((keptLinks slots updated).map fun n => n.nid.ref) ⊆
        (updated.filter fun t => slots.any (slotNames t.nid)).map fun t => t.nid.ref := by
      intro b hb
      obtain ⟨hA, hU⟩ := (mem_keptRefs hout).mp hb
      obtain ⟨t, ht, rfl⟩ := List.mem_map.mp hU
      exact List.mem_map_of_mem (List.mem_filter.mpr ⟨ht, (present_iff hout ht).mpr hA⟩)
    have hkept : ((keptLinks slots updated).map fun n => n.nid.ref).Nodup :=
      hnd.sublist (List.filter_sublist.map _)
    simpa using (List.subperm_of_subset hkept hsub).length_le
  have h2 := List.length_eq_length_filter_add (l := updated) fun t => slots.any (slotNames t.nid)
  rw [freshLinks]
  omega

end Members

/-- The level before step F: `K` are the dropped neighbours that keep a link of their own. -/
structure Staged (w : ℕ) (s s₅ : LevelState) (V : Set ℕ) (x : ℕ) (updated : List Node) (K : List ℕ) : Prop where
  rewired : Rewired s s₅
  around : Around w s₅.toLevelStore V x {b | b ∈ s.names x ∧ (b ∈ droppedRefs updated (s.slots x) → b ∈ K)}
  links : (s₅.links x).Perm (keptLinks (s.slots x) updated ++
    (freshLinks (s.slots x) updated).map (stage ((s.chained x).map NID.ref)))
  chained : ∀ n, n ∈ s₅.chained x ↔ (n ∈ s.chained x ∧ n.ref ∉ updated.map fun u => u.nid.ref) ∨
    n.incoming = true ∧ n.ref ∈ K
  chained_nodup : ((s₅.chained x).map NID.ref).Nodup
  same : ∀ b, b ≠ x → s₅.slots b = s.slots b
  kept : ∀ b ∈ K, b ∈ droppedRefs updated (s.slots x)
  keeping : ∀ b ∈ K, ∃ n ∈ s.links b, n.nid.ref = x
  others : SameBut x s.toLevelStore s₅.toLevelStore

/-- Steps A to E. -/
theorem replaceNeighbours_staged (hcap : 0 < c.overflowCapacity) (hq : s.Quiet) (hs : s.Chains)
    (hm : Mutual w s.toLevelStore V) (hxV : x ∈ V) (hx : node.nid = ⟨x, false⟩) {updated : List Node}
    (hupd : ∀ u ∈ updated, u.nid.incoming = false) (hnodup : (updated.map fun u => u.nid.ref).Nodup)
    (hlen : updated.length ≤ w) {out : List Node} (h : replaceNeighbours c node updated s = (.ok out, s')) :
    ∃ s₅ K, Staged w s s₅ (V \ {x}) x updated K ∧ linkNeighboursLocked c node s₅ = (.ok out, s') := by
  obtain ⟨hA₀, hset⟩ := hm.around hxV
  have hsound := hset.sound
  rw [replaceNeighbours, Prog.bind_returns] at h
  obtain ⟨e, _, he, h⟩ := h
  rw [fetch_returns hq] at he
  obtain ⟨he, rfl⟩ := he
  rw [hx] at he
  rw [← slots_of_entry he] at h
  set slots := s.slots x with hslots
  set A := (s.links x).map fun n => n.nid.ref with hA
  set B := (s.chained x).map NID.ref with hB
  set U := updated.map fun u => u.nid.ref with hU
  have hAB : (A ++ B).Nodup := hsound.nodup
  -- step A
  rw [Prog.bind_returns] at h
  obtain ⟨_, s₁, h₁, h⟩ := h
  obtain ⟨hq₁, ht₁, hsl₁, hh₁, hch₁, -⟩ := updateSlots_spec hq hs h₁
  rw [hx] at ht₁ hsl₁ hh₁ hch₁
  rw [← hslots, demoted_eq, writeSlots_collect] at hsl₁
  have hr₁ : Rewired s s₁ := .of_touch hq₁ ht₁
  have hlive₁ : s₁.Live x := ht₁.live_iff.mpr hsound.live
  -- step B
  rw [Prog.bind_returns] at h
  obtain ⟨_, s₂, h₂, h⟩ := h
  obtain ⟨done, K, hdone, hw⟩ := Prog.forM_returns
    (fun rest t => ∃ done K, slots = done ++ rest ∧
      DropWalk w s₁ (V \ {x}) x {a | a ∈ s.names x} updated t done K)
    (fun o rest t t' hinv hrun => by
      obtain ⟨done, K, hsplit, hI⟩ := hinv
      obtain ⟨K', hI'⟩ := hI.step hcap hx hsplit hlive₁ (List.nodup_append.mp hAB).1
        (fun n hn => ⟨mem_names_of_link hn, (hA₀.named _ (mem_names_of_link hn)).1⟩) hrun
      exact ⟨done ++ [o], K', by simp [hsplit], hI'⟩)
    slots s₁ s₂ ⟨[], [], rfl, .refl hq₁ ht₁.chains, by simpa [droppedRefs] using hA₀.touch ht₁, rfl,
      by simp, .inr rfl, by simp [droppedRefs], fun _ _ => rfl, by simp, .refl _ _⟩ h₂
  obtain rfl : done = slots := by simpa using hdone.symm
  have hKmem : ∀ b ∈ K, b ∈ A ∧ b ∉ U := fun b hb => (mem_droppedRefs hupd).mp (hw.kept.subset hb)
  have hC : ((s₂.chained x).map NID.ref).Perm (K ++ B) := by
    have := hw.chained.map NID.ref
    rwa [List.map_append, List.map_map, show NID.ref ∘ (fun b : ℕ => (⟨b, true⟩ : NID)) = id from rfl,
      List.map_id, hch₁] at this
  -- step C
  rw [Prog.bind_returns] at h
  obtain ⟨⟨staged, promoted⟩, s₃, h₃, h⟩ := h
  have hfind : ∀ t ∈ updated, ∀ r s', findOverflowLink e.overflow t.nid s₂ = (.ok r, s') → s' = s₂ ∧
      (∀ link, r = some link → ∃ n, FoundIn s₂.toLevelStore x link n ∧ n.clearIncoming = t.nid) ∧
      (r = none → t.nid.ref ∉ (s₂.chained x).map NID.ref) := by
    intro t ht r s' hf
    have htU : t.nid.ref ∈ U := List.mem_map_of_mem ht
    rcases hw.head with hh | hh
    · -- there was no chain, so the chain has the kept neighbours only
      have hnil : s.head x = none := hh₁ ▸ hh
      have hov : e.overflow = none := by simpa [head_of_entry he] using hnil
      rw [hov, findOverflowLink, chainFuel_bind] at hf
      simp only [findOverflowFrom, Prog.pure_apply, Prod.mk.injEq, Except.ok.injEq] at hf
      obtain ⟨rfl, rfl⟩ := hf
      refine ⟨rfl, by simp, fun _ hmem => ?_⟩
      have hBnil : B = [] := by
        have : s.chain x = [] := chain_eq (l := []) hnil
        simp [hB, chained, this]
      rw [hC.mem_iff, hBnil, List.append_nil] at hmem
      exact (hKmem _ hmem).2 htU
    · obtain ⟨h1, h2, h3⟩ := findOverflowLink_spec hw.rewired.quiet hw.rewired.chains
        ((hw.rewired.live_iff x).mpr hlive₁) (hh.trans (hh₁.trans (head_of_entry he))) hf
      refine ⟨h1, h2, fun hr hmem => ?_⟩
      obtain ⟨n, hn, hnt⟩ := List.mem_map.mp hmem
      exact h3 hr n hn ((NID.clearIncoming_eq_iff (hupd t ht)).mpr hnt)
  obtain ⟨rfl, hstaged, ns, hns, hnsr⟩ := stageLinks_spec hfind h₃
  dsimp only at hstaged hns
  set fresh := freshLinks slots updated with hfresh
  have hfreshU {t : Node} (ht : t ∈ fresh) : t.nid.ref ∈ U := List.mem_map_of_mem ((mem_freshLinks hupd).mp ht).1
  have hCB {b : ℕ} (hb : b ∈ U) : b ∈ (s₃.chained x).map NID.ref ↔ b ∈ B := by
    rw [hC.mem_iff, List.mem_append, or_iff_right fun hK => (hKmem b hK).2 hb]
  have hstaged : staged = fresh.map (stage B) := hstaged.trans <| List.map_congr_left fun t ht => by
    simp only [stage, hCB (hfreshU ht)]
  have hN (b : ℕ) : b ∈ ns.map NID.ref ↔ b ∈ U ∧ b ∈ B := by
    rw [hnsr, List.mem_map]
    simp only [List.mem_filter, decide_eq_true_eq]
    constructor
    · rintro ⟨t, ⟨ht, htC⟩, rfl⟩
      exact ⟨hfreshU ht, (hCB (hfreshU ht)).mp htC⟩
    · rintro ⟨hbU, hbB⟩
      obtain ⟨t, ht, rfl⟩ := List.mem_map.mp hbU
      refine ⟨t, ⟨(mem_freshLinks hupd).mpr ⟨ht, fun htA => ?_⟩, (hCB hbU).mpr hbB⟩, rfl⟩
      exact (List.nodup_append.mp hAB).2.2 _ htA _ hbB rfl
  -- step D
  rw [Prog.bind_returns] at h
  obtain ⟨_, s₄, h₄, h⟩ := h
  obtain ⟨hq₄, ht₄, hsl₄, -, hch₄, hfound₄⟩ := updateSlots_spec hw.rewired.quiet hw.rewired.chains h₄
  rw [hx] at ht₄ hsl₄ hch₄ hfound₄
  have hroom : staged.length + (slots.reduceOption.filter (inUpdated updated)).length ≤ slots.length := by
    have h1 := length_links_le hupd (List.nodup_append.mp hAB).1
    have h2 : slots.length = w := hsound.width
    rw [hstaged, List.length_map, h2]
    exact h1.trans hlen
  obtain ⟨res, hres, hperm⟩ := fillSlots_spec
    (f := fun o => (demote updated o).getD o) rfl (fun n hn => demote_keep hn) slots staged [] hroom
  have hlinks₄ : (s₄.links x).Perm (keptLinks slots updated ++ staged) := by
    rw [links, hsl₄, hw.slots, hsl₁]
    have : writeSlots (fillSlots updated 0 slots staged)
        (slots.map fun o => (demote updated o).getD o) = res := by simpa using hres
    rw [this]
    exact hperm
  -- step E
  rw [Prog.bind_returns] at h
  obtain ⟨_, s₅, h₅, h⟩ := h
  have hr₃ : Rewired s s₃ := hr₁.trans hw.rewired
  have hlive₄ : s₄.Live x := ht₄.live_iff.mpr ((hr₃.live_iff x).mpr hsound.live)
  have hnsnd : ns.Nodup := by
    refine List.Nodup.of_map NID.ref ?_
    rw [hnsr]
    exact (hnodup.sublist (List.filter_sublist.map _)).sublist (List.filter_sublist.map _)
  have hns₄ : List.Forall₂ (FoundIn s₄.toLevelStore x) promoted ns := hns.imp hfound₄
  obtain ⟨hq₅, ht₅, hsl₅, hp₅⟩ := clearLinks_spec hq₄ ht₄.chains hlive₄ hns₄ hnsnd h₅
  rw [hch₄] at hp₅
  have hnd₅ : (ns.map NID.ref ++ (s₅.chained x).map NID.ref).Nodup := by
    rw [← List.map_append, ← (hp₅.map NID.ref).nodup_iff, hC.nodup_iff]
    exact hAB.sublist ((hw.kept.trans (List.filter_sublist.map _)).append (List.Sublist.refl B))
  have hmem₃ (n : NID) : n ∈ s₃.chained x ↔ n.incoming = true ∧ n.ref ∈ K ∨ n ∈ s.chained x := by
    rw [hw.chained.mem_iff, List.mem_append, hch₁, List.mem_map]
    refine or_congr_left ⟨?_, ?_⟩
    · rintro ⟨b, hb, rfl⟩
      exact ⟨rfl, hb⟩
    · rintro ⟨h1, h2⟩
      exact ⟨n.ref, h2, by rw [← h1]⟩
  have hmem₅ (n : NID) : n ∈ s₅.chained x ↔ n ∈ s₃.chained x ∧ n.ref ∉ ns.map NID.ref := by
    rw [hp₅.mem_iff, List.mem_append]
    constructor
    · exact fun hn => ⟨.inr hn, fun h' => (List.nodup_append.mp hnd₅).2.2 _ h' _ (List.mem_map_of_mem hn) rfl⟩
    · rintro ⟨h1, h2⟩
      exact h1.resolve_left fun h' => h2 (List.mem_map_of_mem h')
  refine ⟨s₅, K, ⟨hr₃.trans ((Rewired.of_touch hq₄ ht₄).trans (.of_touch hq₅ ht₅)), (hw.around.touch ht₄).touch ht₅,
    ?_, fun n => ?_, (List.nodup_append.mp hnd₅).2.1, fun b hb => ?_, fun b hb => hw.kept.subset hb, fun b hb => ?_,
    (SameBut.of_touch ht₁).trans (hw.others.trans ((SameBut.of_touch ht₄).trans (.of_touch ht₅)))⟩, h⟩
  · rw [links, hsl₅, ← hstaged]
    exact hlinks₄
  · rw [hmem₅, hmem₃, hN]
    constructor
    · rintro ⟨hn | hn, hno⟩
      · exact .inr hn
      · exact .inl ⟨hn, fun hnU => hno ⟨hnU, List.mem_map_of_mem hn⟩⟩
    · rintro (⟨hn, hnU⟩ | hn)
      · exact ⟨.inr hn, fun h' => hnU h'.1⟩
      · exact ⟨.inl hn, fun h' => (hKmem _ hn.2).2 h'.1⟩
  · rw [ht₅.slots b hb, ht₄.slots b hb, hw.same b hb, ht₁.slots b hb]
  · obtain ⟨n, hn, hnx⟩ := hw.keeping b hb
    have hne : b ≠ x := by
      rintro rfl
      exact hsound.irrefl (List.mem_append_left _ (hKmem _ hb).1)
    exact ⟨n, ht₁.links hne ▸ hn, hnx⟩

section Last

variable {updated : List Node} {K : List ℕ} {s₅ : LevelState} {out : List Node}

theorem stage_ref (B : List ℕ) (t : Node) : (stage B t).nid.ref = t.nid.ref := by
  rw [stage]
  split <;> rfl

theorem unflag_stage (B : List ℕ) {t : Node} (h : t.nid.incoming = false) : unflag (stage B t) = t := by
  rw [stage]
  split
  · exact unflag_eq h
  · exact unflag_eq h

/-- Before step F the record of `x` names those that name it, and the flagged links besides. -/
theorem Staged.pending (h : Staged w s s₅ V x updated K) (hsound : Sound w s.toLevelStore x)
    (hgood : ∀ u ∈ updated, Good s.toLevelStore V u) (hnodup : (updated.map fun u => u.nid.ref).Nodup) :
    Pending w s₅.toLevelStore V x {b | b ∈ s.names x ∧ (b ∈ droppedRefs updated (s.slots x) → b ∈ K)} := by
  have hupd : ∀ u ∈ updated, u.nid.incoming = false := fun u hu => (hgood u hu).outgoing
  have hAB := hsound.nodup
  rw [names] at hAB
  set B := (s.chained x).map NID.ref with hB
  have hrefs : (keptLinks (s.slots x) updated ++ (freshLinks (s.slots x) updated).map (stage B)).map
      (fun n => n.nid.ref) = (keptLinks (s.slots x) updated).map (fun n => n.nid.ref) ++
        (freshLinks (s.slots x) updated).map fun n => n.nid.ref := by
    rw [List.map_append, List.map_map]
    exact congrArg _ (List.map_congr_left fun t _ => stage_ref B t)
  -- the list names nodes of the updated list, the chain others
  have hlistU : ∀ b ∈ (s₅.links x).map fun n => n.nid.ref, b ∈ updated.map fun u => u.nid.ref := fun b hb => by
    rw [(h.links.map fun n => n.nid.ref).mem_iff, hrefs, List.mem_append] at hb
    rcases hb with hb | hb
    · exact ((mem_keptRefs hupd).mp hb).2
    · obtain ⟨t, ht, rfl⟩ := List.mem_map.mp hb
      exact List.mem_map_of_mem ((mem_freshLinks hupd).mp ht).1
  have hchainU : ∀ n ∈ s₅.chained x, n.ref ∉ updated.map fun u => u.nid.ref := fun n hn =>
    ((h.chained n).mp hn).elim And.right fun h' => ((mem_droppedRefs hupd).mp (h.kept _ h'.2)).2
  refine ⟨(h.rewired.live_iff x).mpr hsound.live, (h.rewired.length_slots x).trans hsound.width, fun n hn => ?_,
    fun n hn => ?_, ?_, fun b => ?_, fun n hn hi => ?_⟩
  · rw [h.rewired.ownerOf]
    rcases List.mem_append.mp (h.links.mem_iff.mp hn) with hn | hn
    · exact hsound.owner n (List.mem_of_mem_filter hn)
    · obtain ⟨t, ht, rfl⟩ := List.mem_map.mp hn
      have := (hgood t ((mem_freshLinks hupd).mp ht).1).owner
      rw [stage]
      split <;> exact this
  · exact ((h.chained n).mp hn).elim (fun h' => hsound.flagged n h'.1) And.left
  · rw [names]
    refine List.nodup_append.mpr ⟨?_, h.chained_nodup, fun a ha b hb he => ?_⟩
    · rw [(h.links.map fun n => n.nid.ref).nodup_iff, hrefs]
      refine List.nodup_append.mpr ⟨(List.nodup_append.mp hAB).1.sublist (List.filter_sublist.map _),
        hnodup.sublist (List.filter_sublist.map _), fun a ha b hb he => ?_⟩
      obtain ⟨t, ht, rfl⟩ := List.mem_map.mp hb
      exact ((mem_freshLinks hupd).mp ht).2 (he ▸ ((mem_keptRefs hupd).mp ha).1)
    · obtain ⟨n, hn, rfl⟩ := List.mem_map.mp hb
      exact hchainU n hn (he ▸ hlistU a ha)
  · -- a node names `x` before step F if the list keeps it, the chain has it or it keeps a link
    have hout (n : Node) (hn : n ∈ s₅.links x) : n.nid.incoming = false ↔
        n.nid.ref ∈ (s.links x).map (fun n => n.nid.ref) ∨ n.nid.ref ∈ B := by
      rcases List.mem_append.mp (h.links.mem_iff.mp hn) with hn | hn
      · have hmem := List.mem_of_mem_filter hn
        exact iff_of_true (hsound.outgoing n hmem) (.inl (List.mem_map_of_mem hmem))
      · obtain ⟨t, ht, rfl⟩ := List.mem_map.mp hn
        obtain ⟨htU, htA⟩ := (mem_freshLinks hupd).mp ht
        rw [stage_ref, stage, or_iff_right (show t.nid.ref ∉ (s.links x).map fun n => n.nid.ref from htA)]
        split
        · exact iff_of_true (hupd t htU) ‹_›
        · exact iff_of_false (by simp) ‹_›
    have hin (b : ℕ) (hb : b ∈ updated.map fun u => u.nid.ref) : ∃ n ∈ s₅.links x, n.nid.ref = b := by
      rw [← List.mem_map, (h.links.map fun n => n.nid.ref).mem_iff, hrefs, List.mem_append]
      by_cases hA : b ∈ (s.links x).map fun n => n.nid.ref
      · exact .inl ((mem_keptRefs hupd).mpr ⟨hA, hb⟩)
      · obtain ⟨t, ht, rfl⟩ := List.mem_map.mp hb
        exact .inr (List.mem_map_of_mem ((mem_freshLinks hupd).mpr ⟨ht, hA⟩))
    have hdrop : b ∈ droppedRefs updated (s.slots x) ↔ _ := mem_droppedRefs hupd
    have hnames : b ∈ s.names x ↔ b ∈ (s.links x).map (fun n => n.nid.ref) ∨ b ∈ B := List.mem_append
    rw [Set.mem_ofPred_eq, hnames, hdrop]
    constructor
    · rintro ⟨hb, hK⟩
      by_cases hU : b ∈ updated.map fun u => u.nid.ref
      · obtain ⟨n, hn, rfl⟩ := hin b hU
        exact .inl ⟨n, hn, (hout n hn).mpr hb, rfl⟩
      · rcases hb with hA | hB'
        · exact .inr ⟨⟨b, true⟩, (h.chained _).mpr (.inr ⟨rfl, hK ⟨hA, hU⟩⟩), rfl⟩
        · obtain ⟨n, hn, rfl⟩ := List.mem_map.mp hB'
          exact .inr ⟨n, (h.chained n).mpr (.inl ⟨hn, hU⟩), rfl⟩
    · rintro (⟨n, hn, hi, rfl⟩ | ⟨n, hn, rfl⟩)
      · exact ⟨(hout n hn).mp hi, fun h' => absurd (hlistU _ (List.mem_map_of_mem hn)) h'.2⟩
      · rcases (h.chained n).mp hn with ⟨hn, -⟩ | ⟨-, hK⟩
        · have hB' : n.ref ∈ B := List.mem_map_of_mem hn
          exact ⟨.inr hB', fun h' => absurd hB' fun h3 => (List.nodup_append.mp hAB).2.2 _ h'.1 _ h3 rfl⟩
        · exact ⟨.inl ((mem_droppedRefs hupd).mp (h.kept _ hK)).1, fun _ => hK⟩
  · rcases List.mem_append.mp (h.links.mem_iff.mp hn) with hn | hn
    · rw [hsound.outgoing n (List.mem_of_mem_filter hn)] at hi
      exact absurd hi (by simp)
    · obtain ⟨t, ht, rfl⟩ := List.mem_map.mp hn
      rw [stage_ref]
      exact (hgood t ((mem_freshLinks hupd).mp ht).1).mem

/-- What `replace_neighbours` does to the level. -/
structure Replaced (c : LevelCtx) (w : ℕ) (s s' : LevelState) (V : Set ℕ) (x : ℕ) (updated out : List Node)
    (K : List ℕ) : Prop where
  rewired : Rewired s s'
  atRest : Mutual w s'.toLevelStore V
  links : (s'.links x).Perm updated
  chained : ∀ n, n ∈ s'.chained x ↔ (n ∈ s.chained x ∧ n.ref ∉ updated.map fun u => u.nid.ref) ∨
    n.incoming = true ∧ n.ref ∈ K
  grown : ∀ b, b ≠ x → ∀ n ∈ s.links b, n ∈ s'.links b
  kept : ∀ b ∈ K, b ∈ droppedRefs updated (s.slots x)
  keeping : ∀ b ∈ K, ∃ n ∈ s.links b, n.nid.ref = x
  reports : ∀ n, n ∈ out ↔ n ∈ updated ∧ n.nid.ref ∉ s.names x ∧ hasRoom c (s.slots n.nid.ref) = false
  others : SameBut x s.toLevelStore s'.toLevelStore
  landed : ∀ n ∈ updated, n.nid.ref ∉ s.names x → hasRoom c (s.slots n.nid.ref) = true →
    ∃ m ∈ s'.links n.nid.ref, m.nid.ref = x

/-- The links of a node without the flag are the updated list. -/
theorem Staged.links_perm (h : Staged w s s₅ V x updated K) (hsound : Sound w s.toLevelStore x)
    (hgood : ∀ u ∈ updated, Good s.toLevelStore V u) (hnodup : (updated.map fun u => u.nid.ref).Nodup) :
    ((s₅.links x).map unflag).Perm updated := by
  have hupd : ∀ u ∈ updated, u.nid.incoming = false := fun u hu => (hgood u hu).outgoing
  have hkept : (keptLinks (s.slots x) updated).map unflag = keptLinks (s.slots x) updated :=
    (List.map_congr_left fun n hn => unflag_eq (hsound.outgoing n (List.mem_of_mem_filter hn))).trans (List.map_id _)
  have hfresh : ((freshLinks (s.slots x) updated).map (stage ((s.chained x).map NID.ref))).map unflag =
      freshLinks (s.slots x) updated := by
    rw [List.map_map]
    refine (List.map_congr_left fun t ht => ?_).trans (List.map_id _)
    exact unflag_stage _ (hupd t ((mem_freshLinks hupd).mp ht).1)
  have hperm := h.links.map unflag
  rw [List.map_append, hkept, hfresh] at hperm
  refine hperm.trans (List.Perm.trans (List.Perm.append_right _ ?_)
    (List.filter_append_perm (fun t => (s.slots x).any (slotNames t.nid)) updated))
  -- a link that is kept is the one of the updated list
  have hndA := (List.nodup_append.mp hsound.nodup).1
  refine (List.perm_ext_iff_of_nodup ((List.Nodup.of_map _ hndA).filter _)
    ((List.Nodup.of_map _ hnodup).filter _)).mpr fun n => ?_
  rw [List.mem_filter, List.mem_filter, inUpdated_iff hupd]
  have hsame {m : Node} (hm : m ∈ s.links x) {u : Node} (hu : u ∈ updated) (he : u.nid.ref = m.nid.ref) : u = m := by
    have h1 := hsound.outgoing m hm
    have h2 := hupd u hu
    have h3 := hsound.owner m hm
    rw [← he, (hgood u hu).owner] at h3
    rcases u with ⟨⟨r, f⟩, v⟩
    rcases m with ⟨⟨r', f'⟩, v'⟩
    simp_all
  constructor
  · rintro ⟨hn, hnU⟩
    obtain ⟨u, hu, he⟩ := List.mem_map.mp hnU
    obtain rfl := hsame hn hu he
    exact ⟨hu, (present_iff hupd hu).mpr (List.mem_map_of_mem hn)⟩
  · rintro ⟨hn, hp⟩
    obtain ⟨m, hm, he⟩ := List.mem_map.mp ((present_iff hupd hn).mp hp)
    obtain rfl := hsame hm hn he.symm
    exact ⟨hm, List.mem_map_of_mem hn⟩

theorem replaceNeighbours_replaced (hcap : 0 < c.overflowCapacity) (hq : s.Quiet) (hs : s.Chains)
    (hm : Mutual w s.toLevelStore V) (hxV : x ∈ V) (hx : node.nid = ⟨x, false⟩)
    (hown : s.ownerOf x = some node.vid) (hgood : ∀ u ∈ updated, Good s.toLevelStore (V \ {x}) u)
    (hnodup : (updated.map fun u => u.nid.ref).Nodup) (hlen : updated.length ≤ w)
    (h : replaceNeighbours c node updated s = (.ok out, s')) : ∃ K, Replaced c w s s' V x updated out K := by
  have hsound := hm.sound x hxV
  have hupd : ∀ u ∈ updated, u.nid.incoming = false := fun u hu => (hgood u hu).outgoing
  obtain ⟨s₅, K, hst, hlink⟩ := replaceNeighbours_staged hcap hq hs hm hxV hx hupd hnodup hlen h
  obtain ⟨hl, hM⟩ := linkNeighboursLocked_links hcap hst.rewired.quiet hst.rewired.chains hst.around
    (hst.pending hsound hgood hnodup) hx ((hst.rewired.ownerOf x).trans hown) hlink
  rw [Set.insert_sdiff_singleton, Set.insert_eq_of_mem hxV] at hM
  have hslots {n : Node} (hn : n ∈ updated) : s₅.slots n.nid.ref = s.slots n.nid.ref :=
    hst.same _ fun he => (hgood n hn).mem.2 he
  have hnames {n : Node} : n.nid.ref ∈ s.names x ↔ n.nid.ref ∈ (s.slots x).reduceOption.map (fun n => n.nid.ref) ∨
      n.nid.ref ∈ (s.chained x).map NID.ref := List.mem_append
  -- a new link that the chain does not have is staged with the flag
  have hstaged {n : Node} (hn : n ∈ updated) (hnA : n.nid.ref ∉ (s.slots x).reduceOption.map fun n => n.nid.ref)
      (hnB : n.nid.ref ∉ (s.chained x).map NID.ref) : ∃ m ∈ s₅.links x, m.nid.incoming = true ∧ unflag m = n := by
    have hmem := List.mem_map_of_mem (f := stage ((s.chained x).map NID.ref)) ((mem_freshLinks hupd).mpr ⟨hn, hnA⟩)
    refine ⟨_, hst.links.mem_iff.mpr (List.mem_append_right _ hmem), ?_, unflag_stage _ (hupd n hn)⟩
    rw [stage, if_neg hnB]
    rfl
  refine ⟨K, hst.rewired.trans hl.rewired, hM, hl.links ▸ hst.links_perm hsound hgood hnodup,
    fun n => hl.chained ▸ hst.chained n, fun b hb n hn => hl.grown b hb n ?_, hst.kept, hst.keeping, fun n => ?_,
    hst.others.trans hl.same, fun n hn hno hroom => ?_⟩
  · rwa [LevelStore.links, hst.same b hb]
  · rw [hl.reports, mem_reported, hnames, not_or]
    constructor
    · rintro ⟨m, hmem, hi, hroom, rfl⟩
      rcases List.mem_append.mp (hst.links.mem_iff.mp hmem) with hk | hk
      · rw [hsound.outgoing m (List.mem_of_mem_filter hk)] at hi
        exact absurd hi (by simp)
      · obtain ⟨t, ht, rfl⟩ := List.mem_map.mp hk
        obtain ⟨htU, htA⟩ := (mem_freshLinks hupd).mp ht
        rw [unflag_stage _ (hupd t htU)]
        refine ⟨htU, ⟨htA, fun h' => ?_⟩, by rwa [stage_ref, hslots htU] at hroom⟩
        rw [stage, if_pos h', hupd t htU] at hi
        exact absurd hi (by simp)
    · rintro ⟨hn, ⟨hnA, hnB⟩, hroom⟩
      obtain ⟨m, hm, hi, rfl⟩ := hstaged hn hnA hnB
      exact ⟨m, hm, hi, (congrArg (hasRoom c) (hslots hn)).trans hroom, rfl⟩
  · obtain ⟨hnA, hnB⟩ := not_or.mp (mt hnames.mpr hno)
    obtain ⟨m, hm, hi, rfl⟩ := hstaged hn hnA hnB
    exact hl.landed m hm hi ((congrArg (hasRoom c) (hslots hn)).trans hroom)

/-- `replace_neighbours` keeps chains backed: what it moves to the chain of `x` keeps its own link. -/
theorem Replaced.backed (h : Replaced c w s s' V x updated out K) (hm : Mutual w s.toLevelStore V) (hxV : x ∈ V)
    (hB : Backed s.toLevelStore V) : Backed s'.toLevelStore V := by
  refine hB.of_same h.others h.atRest (fun a ha _ => ha) fun _ n hn => ?_
  obtain ⟨m, hm', hmx⟩ : ∃ m ∈ s.links n.ref, m.nid.ref = x := by
    rcases (h.chained n).mp hn with ⟨hold, -⟩ | ⟨-, hK⟩
    · exact hB x hxV n hold
    · exact h.keeping _ hK
  have hne : n.ref ≠ x := fun he => by
    have hself := mem_names_of_link hm'
    rw [he, hmx] at hself
    exact (hm.sound x hxV).irrefl hself
  exact ⟨m, h.grown _ hne m hm', hmx⟩

end Last

/-- `replace_neighbours` keeps a level at rest. -/
theorem replaceNeighbours_spec (hcap : 0 < c.overflowCapacity) (hq : s.Quiet) (hs : s.Chains)
    (hm : Mutual w s.toLevelStore V) (hxV : x ∈ V) (hx : node.nid = ⟨x, false⟩)
    (hown : s.ownerOf x = some node.vid) {updated : List Node}
    (hgood : ∀ u ∈ updated, Good s.toLevelStore (V \ {x}) u)
    (hnodup : (updated.map fun u => u.nid.ref).Nodup) (hlen : updated.length ≤ w) {out : List Node}
    (h : replaceNeighbours c node updated s = (.ok out, s')) :
    Rewired s s' ∧ Mutual w s'.toLevelStore V ∧ ∀ n ∈ out, Good s'.toLevelStore V n := by
  obtain ⟨K, hr⟩ := replaceNeighbours_replaced hcap hq hs hm hxV hx hown hgood hnodup hlen h
  refine ⟨hr.rewired, hr.atRest, fun n hn => ?_⟩
  have hn := hgood n ((hr.reports n).mp hn).1
  exact ⟨hn.mem.1, hn.outgoing, (hr.rewired.ownerOf _).trans hn.owner⟩

/-- **What `replace_neighbours` does.** In a level at rest, if no storage call fails, the node
has the updated links afterwards and nothing else has lost one; the level is at rest again. -/
theorem replace_neighbours_links (hM : 0 < c.M) (hq : s.Quiet) (hs : s.Chains)
    (hm : Mutual c.maxNeighbours s.toLevelStore {a | s.Live a}) (hn : Good s.toLevelStore {a | s.Live a} node)
    {updated : List Node} (hgood : ∀ u ∈ updated, Good s.toLevelStore ({a | s.Live a} \ {node.nid.ref}) u)
    (hnodup : updated.Nodup) (hlen : updated.length ≤ c.maxNeighbours) {out : List Node}
    (h : replaceNeighbours c node updated s = (.ok out, s')) :
    (s'.links node.nid.ref).Perm updated ∧ (∀ n ∈ s'.links node.nid.ref, n.nid.incoming = false) ∧
    (∀ t ∈ updated, node.nid.ref ∈ s'.names t.nid.ref) ∧
    (∀ d ∈ s.links node.nid.ref, d ∉ updated → node.nid.ref ∉ s'.names d.nid.ref ∨
      (∃ n ∈ s'.links d.nid.ref, n.nid = node.nid) ∧ (s'.chained node.nid.ref).count ⟨d.nid.ref, true⟩ = 1) ∧
    (∀ n ∈ s.chained node.nid.ref, n ∈ s'.chained node.nid.ref ↔ ∀ t ∈ updated, t.nid.ref ≠ n.ref) ∧
    (∀ b, b ≠ node.nid.ref → ∀ n ∈ s.links b, n ∈ s'.links b) ∧
    (s'.Chains ∧ Mutual c.maxNeighbours s'.toLevelStore {a | s'.Live a}) ∧
    ∀ n, n ∈ out ↔ n ∈ updated ∧ n.nid.ref ∉ s.names node.nid.ref ∧ none ∉ s.slots n.nid.ref := by
  have hx : node.nid = ⟨node.nid.ref, false⟩ := by rw [← hn.outgoing]
  set x := node.nid.ref with hxdef
  have hcap : 0 < c.overflowCapacity := by
    rw [LevelCtx.overflowCapacity, overflowCapacity, maxOverflowLen]
    omega
  have hrefs : (updated.map fun u => u.nid.ref).Nodup :=
    List.Nodup.map_on (fun a ha b hb he => (hgood a ha).eq_of_ref (hgood b hb) he) hnodup
  obtain ⟨K, hr⟩ := replaceNeighbours_replaced hcap hq hs hm hn.mem hx hn.owner hgood hrefs hlen h
  have hsound := hm.sound x hn.mem
  have hsound' := hr.atRest.sound x hn.mem
  have hlive : {a | s'.Live a} = {a | s.Live a} := Set.ext fun a => hr.rewired.live_iff a
  refine ⟨hr.links, hsound'.outgoing, fun t ht => ?_, fun d hd hdU => ?_, fun n hmem => ?_, hr.grown,
    ⟨hr.rewired.chains, hlive ▸ hr.atRest⟩, fun n => ?_⟩
  · exact (hr.atRest.symm x hn.mem _ (mem_names_of_link (hr.links.mem_iff.mpr ht))).2
  · have hdG : Good s.toLevelStore {a | s.Live a} d :=
      ⟨(hm.symm x hn.mem _ (mem_names_of_link hd)).1, hsound.outgoing d hd, hsound.owner d hd⟩
    by_cases hmem : d.nid.ref ∈ s'.names x
    · rcases mem_names.mp hmem with ⟨u, hu, he⟩ | ⟨n, hn', he⟩
      · have huU := hr.links.mem_iff.mp hu
        have hu := hgood u huU
        exact absurd (Good.eq_of_ref ⟨hu.mem.1, hu.outgoing, hu.owner⟩ hdG he ▸ huU) hdU
      · rcases (hr.chained n).mp hn' with ⟨hold, -⟩ | ⟨hi, hK⟩
        · exact absurd he.symm ((List.nodup_append.mp hsound.nodup).2.2 _ (List.mem_map_of_mem hd) _
            (List.mem_map_of_mem hold))
        · have hne : d.nid.ref ≠ x := fun h' => by
            have hself := mem_names_of_link hd
            rw [h'] at hself
            exact hsound.irrefl hself
          obtain ⟨m, hm', hmx⟩ := hr.keeping d.nid.ref (he ▸ hK)
          have hmo := (hm.sound d.nid.ref hdG.mem).outgoing m hm'
          refine .inr ⟨⟨m, hr.grown _ hne m hm', by rw [hx, show x = m.nid.ref from hmx.symm, ← hmo]⟩, ?_⟩
          refine List.count_eq_one_of_mem (List.Nodup.of_map _ (List.nodup_append.mp hsound'.nodup).2.1) ?_
          rwa [← he, ← hi]
    · exact .inl fun hback => hmem (hr.atRest.symm _ hdG.mem _ hback).2
  · rw [hr.chained n, List.mem_map, not_exists]
    constructor
    · rintro (⟨-, hno⟩ | ⟨-, hK⟩) t ht he
      · exact hno t ⟨ht, he⟩
      · refine absurd he.symm fun he => ?_
        exact ((mem_droppedRefs fun u hu => (hgood u hu).outgoing).mp (hr.kept _ hK)).2 (he ▸ List.mem_map_of_mem ht)
    · exact fun hno => .inl ⟨hmem, fun t ⟨ht, he⟩ => hno t ht he⟩
  · rw [hr.reports]
    refine and_congr_right fun hnU => and_congr_right fun _ => ?_
    rw [← Bool.not_eq_true, hasRoom_iff (hm.sound _ (hgood n hnU).mem.1).width]

/-! ### A level of two nodes -/

/-- A level with the nodes 1 and 2, of the vectors 10 and 20, and their links. -/
def twoNodes (ls₁ ls₂ : List (Option Node)) : LevelStore where
  nodes := ((∅ : AList fun _ : ℕ => Record NeighbourEntry).insert 2 ⟨0, false, ⟨20, none, ls₂, none⟩⟩).insert 1
    ⟨0, false, ⟨10, none, ls₁, none⟩⟩
  overflows := ∅

def one : Node := ⟨⟨1, false⟩, 10⟩
def two : Node := ⟨⟨2, false⟩, 20⟩

section TwoNodes

variable {ls₁ ls₂ : List (Option Node)}

theorem twoNodes_live {a : ℕ} : (twoNodes ls₁ ls₂).Live a ↔ a = 1 ∨ a = 2 := by
  rw [Live, AList.lookup_isSome, twoNodes, AList.mem_insert, AList.mem_insert]
  simp [AList.notMem_empty]

theorem twoNodes_chains : (twoNodes ls₁ ls₂).Chains where
  trail a ha := by
    rcases twoNodes_live.mp ha with rfl | rfl <;> exact rfl
  disjoint a b ha hb _ := by
    rcases twoNodes_live.mp ha with rfl | rfl <;> exact List.disjoint_nil_left _

/-- The two nodes without links. -/
theorem apart_mutual : Mutual 2 (twoNodes [none, none] [none, none]) {a | (twoNodes [none, none] [none, none]).Live a} where
  sound a ha := by
    have hlive := ha
    rcases twoNodes_live.mp ha with rfl | rfl
    · exact ⟨hlive, by decide, by decide, by decide, by decide, by decide, by decide⟩
    · exact ⟨hlive, by decide, by decide, by decide, by decide, by decide, by decide⟩
  symm a ha b hb := by
    rcases twoNodes_live.mp ha with rfl | rfl <;> exact absurd hb List.not_mem_nil

theorem one_good : Good (twoNodes ls₁ ls₂) {a | (twoNodes ls₁ ls₂).Live a} one :=
  ⟨twoNodes_live.mpr (.inl rfl), rfl, rfl⟩

theorem two_good : Good (twoNodes ls₁ ls₂) ({a | (twoNodes ls₁ ls₂).Live a} \ {1}) two :=
  ⟨⟨twoNodes_live.mpr (.inr rfl), by decide⟩, rfl, rfl⟩

end TwoNodes

theorem replace_neighbours_links_two :
    ∃ s', replaceNeighbours ⟨1, 2, 0⟩ one [two] ⟨twoNodes [none, none] [none, none], [], []⟩ = (.ok [], s') ∧
      (s'.links 1).Perm [two] ∧ 1 ∈ s'.names 2 := by
  obtain ⟨s', hrun⟩ : ∃ s', replaceNeighbours ⟨1, 2, 0⟩ one [two] ⟨twoNodes [none, none] [none, none], [], []⟩ =
      (.ok [], s') := ⟨_, rfl⟩
  obtain ⟨h1, -, h2, -⟩ := replace_neighbours_links (c := ⟨1, 2, 0⟩)
    (s := ⟨twoNodes [none, none] [none, none], [], []⟩) (by decide) rfl twoNodes_chains apart_mutual
    one_good (List.forall_mem_singleton.mpr two_good) (by decide) (by decide) hrun
  exact ⟨s', hrun, h1, h2 two (by simp)⟩

/-- A storage whose fourth call cannot read its page. -/
def fourthUnread : Supply := ⟨[.done, .done, .done, .refused ⟨"read failed", false⟩], []⟩

/-- Where the record of the new neighbour cannot be read, the link is not recorded on it. -/
theorem replace_neighbours_unread : ∃ s s' : LevelState,
    s.Chains ∧ Mutual 2 s.toLevelStore {a | s.Live a} ∧ Good s.toLevelStore {a | s.Live a} one ∧
      Good s.toLevelStore ({a | s.Live a} \ {1}) two ∧
      replaceNeighbours ⟨1, 2, 0⟩ one [two] s = (.ok [], s') ∧ one.nid.ref ∉ s'.names two.nid.ref := by
  have hnot : one.nid.ref ∉ (replaceNeighbours ⟨1, 2, 0⟩ one [two]
      ⟨twoNodes [none, none] [none, none], fourthUnread⟩).2.names two.nid.ref := by decide
  exact ⟨⟨twoNodes [none, none] [none, none], fourthUnread⟩, _, twoNodes_chains, apart_mutual, one_good, two_good, rfl, hnot⟩

end IndexGraph
end Hnsw
end VsqlVector
