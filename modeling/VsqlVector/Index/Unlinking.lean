/-
# Taking a node out

`unlink_neighbours` visits every node that names the one to go, first those in
its list, then those in its chain, and clears their link to it. Nothing names
the node afterwards and the other links stay as they are. What the node goes on
recording are the neighbours left without an outgoing link of their own, which
`incoming_neighbours` reads back; the others are reported, at most as many as a
list holds.

Key definitions: `orphaned`, `SameBut`, `Unlinked`.
Key theorems: `unlinkNeighbour_spec`, `unlinkNeighbours_unlinked`, `incomingNeighbours_eq`,
`unlink_neighbours_severs`.
-/
import VsqlVector.Index.Replacing

namespace VsqlVector
namespace Hnsw
namespace IndexGraph

open LevelStore LevelProg

variable {w x b : ℕ} {V X : Set ℕ} {c : LevelCtx} {s s' : LevelState} {node : Node} {d : NID}

/-! ### One neighbour -/

theorem scanLinks_aux (node : Node) (hnode : node.nid.incoming = false) (d : NID) :
    ∀ (ws : List (Option Node × ℕ)) (acc res : Option LinkSlot × ℕ),
      ws.foldl (fun acc w => match w.1 with
        | none => acc
        | some n =>
          if n.nid.clearIncoming == node.nid then (some ⟨d, .neighbour, w.2⟩, acc.2)
          else if n.nid.incoming then acc
          else (acc.1, acc.2 + 1)) acc = res →
      (∀ link, res.1 = some link → acc.1 = some link ∨
        ∃ n i, (some n, i) ∈ ws ∧ n.nid.ref = node.nid.ref ∧ link = ⟨d, .neighbour, i⟩) ∧
      (res.1 = none → acc.1 = none ∧ ∀ n i, (some n, i) ∈ ws → n.nid.ref ≠ node.nid.ref) ∧
      res.2 = acc.2 + (ws.map Prod.fst).reduceOption.countP fun n => n.nid.ref ≠ node.nid.ref ∧ n.nid.incoming = false
  | [], acc, res, h => by
    simp only [List.foldl_nil] at h
    subst h
    exact ⟨fun link h => .inl h, fun h => ⟨h, by simp⟩, rfl⟩
  | (o, i) :: ws, acc, res, h => by
    rw [List.foldl_cons] at h
    obtain ⟨h1, h2, h3⟩ := scanLinks_aux node hnode d ws _ res h
    rw [List.map_cons]
    rcases o with _ | n
    · rw [List.reduceOption_cons_of_none]
      refine ⟨fun link hl => (h1 link hl).imp id ?_, fun hr => ⟨(h2 hr).1, fun n i hm => ?_⟩, h3⟩
      · rintro ⟨n, i, hm, hn⟩
        exact ⟨n, i, List.mem_cons_of_mem _ hm, hn⟩
      · exact (h2 hr).2 n i (by simpa using hm)
    · rw [List.reduceOption_cons_of_some, List.countP_cons]
      by_cases hn : n.nid.ref = node.nid.ref
      · have he : (n.nid.clearIncoming == node.nid) = true := by
          simpa using (NID.clearIncoming_eq_iff hnode).mpr hn
        simp only [he, if_true] at h1 h2 h3
        refine ⟨fun link hl => .inr ?_, fun hr => absurd (h2 hr).1 (by simp), by simpa [hn] using h3⟩
        rcases h1 link hl with h' | ⟨m, j, hm, hmn⟩
        · simp only [Option.some.injEq] at h'
          exact ⟨n, i, by simp, hn, h'.symm⟩
        · exact ⟨m, j, List.mem_cons_of_mem _ hm, hmn⟩
      · have he : (n.nid.clearIncoming == node.nid) = false := by
          simpa using fun h' => hn ((NID.clearIncoming_eq_iff hnode).mp h')
        simp only [he, Bool.false_eq_true, if_false] at h1 h2 h3
        have hacc : (if n.nid.incoming = true then acc else (acc.1, acc.2 + 1)).1 = acc.1 := by
          split <;> rfl
        rw [hacc] at h1 h2
        refine ⟨fun link hl => (h1 link hl).imp id ?_, fun hr => ⟨(h2 hr).1, fun m j hm => ?_⟩, ?_⟩
        · rintro ⟨m, j, hm, hmn⟩
          exact ⟨m, j, List.mem_cons_of_mem _ hm, hmn⟩
        · rcases List.mem_cons.mp hm with hm | hm
          · simp only [Prod.mk.injEq, Option.some.injEq] at hm
            rw [hm.1]
            exact hn
          · exact (h2 hr).2 m j hm
        · rw [h3]
          rcases n.nid.incoming with _ | _
          · simp [hn]
            omega
          · simp

/-- The scan of a neighbour's list finds a slot exactly when one names the node,
and counts the other outgoing links. -/
theorem scanLinks_spec (hnode : node.nid.incoming = false) {slots : List (Option Node)}
    {link : Option LinkSlot} {outgoing : ℕ} (h : scanLinks node d slots = (link, outgoing)) :
    (∀ l, link = some l → ∃ n i, slots[i]? = some (some n) ∧ n.nid.ref = node.nid.ref ∧
      l = ⟨d, .neighbour, i⟩) ∧
    (link = none → ∀ n ∈ slots.reduceOption, n.nid.ref ≠ node.nid.ref) ∧
    outgoing = slots.reduceOption.countP fun n => n.nid.ref ≠ node.nid.ref ∧ n.nid.incoming = false := by
  obtain ⟨h1, h2, h3⟩ := scanLinks_aux node hnode d slots.zipIdx (none, 0) _ h
  refine ⟨fun l hl => ?_, fun hl n hn => ?_, by simpa using h3⟩
  · rcases h1 l hl with h' | ⟨n, i, hm, hn, rfl⟩
    · simp at h'
    · exact ⟨n, i, List.mk_mem_zipIdx_iff_getElem?.mp hm, hn, rfl⟩
  · obtain ⟨i, hi, hge⟩ := List.getElem_of_mem (List.reduceOption_mem_iff.mp hn)
    exact (h2 hl).2 n i (List.mk_mem_zipIdx_iff_getElem?.mpr (hge ▸ List.getElem?_eq_getElem hi))

/-- `b` has no outgoing link once its link to `x` is gone. -/
def orphaned (x : ℕ) (s : LevelStore) (b : ℕ) : Bool := (otherLinks x s b).isEmpty

/-- The node at a reference, with its owner. -/
def nodeAt (s : LevelStore) (b : ℕ) : Node := ⟨⟨b, false⟩, (s.ownerOf b).getD 0⟩

namespace SameBut

variable {s s' : LevelStore}

theorem orphaned_eq (h : SameBut x s s') (hb : s.Live b) (hne : b ≠ x) : orphaned x s' b = orphaned x s b := by
  rw [Bool.eq_iff_iff, orphaned, orphaned, List.isEmpty_iff, List.isEmpty_iff]
  exact ⟨fun he => (he ▸ h.links b hb hne).nil_eq.symm, fun he => (he ▸ h.links b hb hne).eq_nil⟩

theorem nodeAt_eq (h : SameBut x s s') (b : ℕ) : nodeAt s' b = nodeAt s b := by
  rw [nodeAt, nodeAt, LevelStore.ownerOf, LevelStore.ownerOf, h.bone]

end SameBut

/-- Clearing the slot of its own list in which a node names `x`. -/
theorem clearSlot_cut (hq : s.Quiet) (hs : s.Chains) (ha : Around w s.toLevelStore V x X)
    (hd : d.ref ∈ V) {i : ℕ} {n : Node} (hslot : (s.slots d.ref)[i]? = some (some n))
    (hn : n.nid.ref = x) (h : clearLink ⟨d, .neighbour, i⟩ s = (.ok (), s')) :
    s'.Quiet ∧ Touch d.ref s.toLevelStore s'.toLevelStore ∧
      Around w s'.toLevelStore V x (X \ {d.ref}) ∧ SameBut x s.toLevelStore s'.toLevelStore := by
  obtain ⟨hq', ht, hsl, -, hc, -⟩ := updateSlots_spec hq hs h
  have hl : (s.links d.ref).Perm (n :: s'.links d.ref) := by
    rw [links, links, hsl]
    exact reduceOption_set_none hslot
  have hnames : (s.names d.ref).Perm (x :: s'.names d.ref) := hn ▸ names_perm_of_links hl hc.symm
  refine ⟨hq', ht, ha.cut hd ht ((ha.sound _ hd).shrink ht hnames ?_ (fun n hn => hc ▸ hn)) hnames, .of_cut ht ?_ ?_⟩
  · exact fun n hn => hl.mem_iff.mpr (List.mem_cons_of_mem _ hn)
  · have hp := hl.symm.filter fun n => n.nid.ref ≠ x
    rwa [List.filter_cons_of_neg (by simpa using hn)] at hp
  · rw [otherChained, otherChained, hc]

/-- `unlink_neighbour`: the neighbour no longer names `x`; it is reported, and an
orphan if it has no other link of its own. -/
theorem unlinkNeighbour_spec (hq : s.Quiet) (hs : s.Chains) (ha : Around w s.toLevelStore V x X)
    (hX : d.ref ∈ X) (hdi : d.incoming = false) (hx : node.nid = ⟨x, false⟩)
    {res : Option Node × Bool} (h : unlinkNeighbour node d s = (.ok res, s')) :
    s'.Quiet ∧ Touch d.ref s.toLevelStore s'.toLevelStore ∧ Around w s'.toLevelStore V x (X \ {d.ref}) ∧
      SameBut x s.toLevelStore s'.toLevelStore ∧
      res = (some (nodeAt s.toLevelStore d.ref), orphaned x s.toLevelStore d.ref) := by
  have hd : d.ref ∈ V := (ha.named _ hX).1
  have hsound := ha.sound d.ref hd
  obtain ⟨e, he⟩ := hsound.live.exists_entry
  have hnid : node.nid.incoming = false := by rw [hx]
  have hnx : node.nid.ref = x := by rw [hx]
  rw [unlinkNeighbour, Prog.bind_returns] at h
  obtain ⟨y, s₁, hy, h⟩ := h
  rw [attempt_fetch_returns hq] at hy
  obtain ⟨rfl, rfl⟩ := hy
  simp only [he, Option.elim_some] at h
  rcases hscan : scanLinks node d e.neighbours with ⟨link, outgoing⟩
  obtain ⟨hsome, hnone, hout⟩ := scanLinks_spec hnid hscan
  simp only [hscan] at h
  rw [← slots_of_entry he] at hsome hnone hout
  have hnode : nodeAt s.toLevelStore d.ref = ⟨d, e.owner⟩ := by
    rw [nodeAt, ownerOf_of_entry he, ← hdi]
    rfl
  -- all its links are outgoing, so the scan counts all that do not lead to `x`
  have horph : (outgoing == 0) = orphaned x s.toLevelStore d.ref := by
    have hcount : outgoing = (otherLinks x s.toLevelStore d.ref).length := by
      rw [hout, otherLinks, ← List.countP_eq_length_filter]
      refine List.countP_congr fun n hn => ?_
      simp [hnx, hsound.outgoing n hn]
    rw [hcount, Bool.eq_iff_iff, beq_iff_eq, List.length_eq_zero_iff, orphaned, List.isEmpty_iff]
  rw [Prog.bind_returns] at h
  obtain ⟨found, s₂, hfind, h⟩ := h
  rw [Prog.bind_returns] at h
  obtain ⟨severed, s₃, hclear, h⟩ := h
  simp only [Prog.pure_apply, Prod.mk.injEq, Except.ok.injEq] at h
  obtain ⟨rfl, rfl⟩ := h
  -- a link is found, in its list or else in its chain, and cleared
  obtain ⟨l, rfl, hcut⟩ : ∃ l, found = some l ∧ ∀ {t : LevelState}, clearLink l s₂ = (.ok (), t) →
      t.Quiet ∧ Touch d.ref s.toLevelStore t.toLevelStore ∧ Around w t.toLevelStore V x (X \ {d.ref}) ∧
      SameBut x s.toLevelStore t.toLevelStore := by
    rcases link with _ | l
    · obtain ⟨rfl, hf1, hf2⟩ := findOverflowLink_spec hq hs hsound.live (head_of_entry he) hfind
      rcases found with _ | l
      · exfalso
        rcases mem_names.mp (ha.named _ hX).2 with ⟨n, hn, he'⟩ | ⟨n, hn, he'⟩
        · exact hnone rfl n hn (he'.trans hnx.symm)
        · exact hf2 rfl n hn ((NID.clearIncoming_eq_iff hnid).mpr (he'.trans hnx.symm))
      · obtain ⟨n, hfn, hn⟩ := hf1 l rfl
        have hnx' : n.ref = x := ((NID.clearIncoming_eq_iff hnid).mp hn).trans hnx
        refine ⟨l, rfl, fun hc => ?_⟩
        obtain ⟨h1, h2, -, h4, h5⟩ := clearLink_cut hq hs ha hd hfn hnx' hc
        exact ⟨h1, h2, h4, h5⟩
    · obtain ⟨n, i, hslot, hn, rfl⟩ := hsome l rfl
      simp only [findLink, Prog.pure_apply, Prod.mk.injEq, Except.ok.injEq] at hfind
      obtain ⟨rfl, rfl⟩ := hfind
      exact ⟨_, rfl, fun hc => clearSlot_cut hq hs ha hd hslot (hn.trans hnx) hc⟩
  rw [clearFound, Prog.bind_returns] at hclear
  obtain ⟨_, s₄, hc, hp⟩ := hclear
  simp only [Prog.pure_apply, Prod.mk.injEq, Except.ok.injEq] at hp
  obtain ⟨rfl, rfl⟩ := hp
  obtain ⟨h1, h2, h3, h4⟩ := hcut hc
  exact ⟨h1, h2, h3, h4, by rw [if_pos rfl, hnode, horph]⟩

/-! ### All neighbours in turn -/

/-- The record of `x`, its chain included, is the same in `s` and `s'`. -/
structure SameRecord (x : ℕ) (s s' : LevelStore) : Prop where
  slots : s'.slots x = s.slots x
  head : s'.head x = s.head x
  chain : s'.chain x = s.chain x
  cells : ∀ o ∈ s.chain x, s'.cells o = s.cells o

namespace SameRecord

theorem refl (x : ℕ) (s : LevelStore) : SameRecord x s s := ⟨rfl, rfl, rfl, fun _ _ => rfl⟩

theorem trans {s s' s'' : LevelStore} (h : SameRecord x s s') (h' : SameRecord x s' s'') :
    SameRecord x s s'' :=
  ⟨h'.slots.trans h.slots, h'.head.trans h.head, h'.chain.trans h.chain,
    fun o ho => (h'.cells o (h.chain ▸ ho)).trans (h.cells o ho)⟩

theorem of_touch {s s' : LevelStore} (ht : Touch b s s') (hx : s.Live x) (hne : x ≠ b) :
    SameRecord x s s' :=
  ⟨ht.slots x hne, ht.head x hne, ht.chain x hx hne, ht.cells x hx hne⟩

theorem chained {s s' : LevelStore} (h : SameRecord x s s') : s'.chained x = s.chained x :=
  chained_congr h.chain h.cells

end SameRecord

/-- Those of a list of links that do not leave an orphan. -/
def surviving (x : ℕ) (s : LevelStore) (ls : List (ℕ × NID)) : List (ℕ × NID) :=
  ls.filter fun l => !orphaned x s l.2.ref

theorem take_append_take {α : Type} (k : ℕ) (xs ys : List α) : ((xs.take k) ++ ys).take k = (xs ++ ys).take k := by
  rw [List.take_append, List.take_append, List.take_take, min_self, List.length_take]
  rcases le_total k xs.length with hk | hk
  · simp [hk]
  · rw [min_eq_right hk]

/-- Severing a list of links: nothing they lead to names `x` afterwards. -/
theorem unlinkLinks_spec (hx : node.nid = ⟨x, false⟩) :
    ∀ {ls : List (ℕ × NID)} {acc res : List ℕ × List Node} {s s' : LevelState} {X : Set ℕ},
      s.Quiet → s.Chains → s.Live x → Around w s.toLevelStore V x X → (∀ l ∈ ls, l.2.ref ∈ X) →
      (ls.map fun l => l.2.ref).Nodup → acc.2.length ≤ c.maxNeighbours →
      ls.foldlM (unlinkLink c node) acc s = (.ok res, s') →
      Rewired s s' ∧ SameRecord x s.toLevelStore s'.toLevelStore ∧ SameBut x s.toLevelStore s'.toLevelStore ∧
        Around w s'.toLevelStore V x (X \ {b | ∃ l ∈ ls, l.2.ref = b}) ∧
        res = (acc.1 ++ (surviving x s.toLevelStore ls).map Prod.fst,
          (acc.2 ++ (surviving x s.toLevelStore ls).map fun l => nodeAt s.toLevelStore l.2.ref).take c.maxNeighbours)
  | [], acc, res, s, s', X, hq, hs, _, ha, _, _, hlen, h => by
    simp only [List.foldlM_nil, Prog.pure_apply, Prod.mk.injEq, Except.ok.injEq] at h
    obtain ⟨rfl, rfl⟩ := h
    refine ⟨.refl hq hs, .refl _ _, .refl _ _, by simpa using ha, ?_⟩
    simp [surviving, List.take_of_length_le hlen]
  | l :: ls, acc, res, s, s', X, hq, hs, hlive, ha, hX, hnd, hlen, h => by
    rw [List.foldlM_cons, Prog.bind_returns] at h
    obtain ⟨acc₁, s₁, h1, h2⟩ := h
    rw [unlinkLink, Prog.bind_returns] at h1
    obtain ⟨⟨nb, orphan⟩, s₂, h1, h3⟩ := h1
    simp only [Prog.pure_apply, Prod.mk.injEq, Except.ok.injEq] at h3
    obtain ⟨hacc, rfl⟩ := h3
    have hlX : l.2.ref ∈ X := hX l (by simp)
    have hlV : l.2.ref ∈ V := (ha.named _ hlX).1
    have hne : x ≠ l.2.ref := fun he => ha.out (he ▸ hlV)
    obtain ⟨hq₂, ht₂, hA₂, hsame₂, hres⟩ := unlinkNeighbour_spec hq hs ha
      (show l.2.clearIncoming.ref ∈ X from hlX) rfl hx h1
    simp only [Prod.mk.injEq, NID.clearIncoming_ref] at hres
    obtain ⟨rfl, rfl⟩ := hres
    obtain ⟨hlnd, hnd⟩ := List.nodup_cons.mp hnd
    have hX₂ : ∀ l' ∈ ls, l'.2.ref ∈ X \ {l.2.clearIncoming.ref} := fun l' hl' =>
      ⟨hX l' (List.mem_cons_of_mem _ hl'), fun he =>
        hlnd (List.mem_map.mpr ⟨l', hl', he⟩)⟩
    -- the link is freed and reported while there is room, unless it leaves an orphan
    have hacc₁ : acc₁ = (acc.1 ++ (surviving x s.toLevelStore [l]).map Prod.fst,
        (acc.2 ++ (surviving x s.toLevelStore [l]).map fun l => nodeAt s.toLevelStore l.2.ref).take c.maxNeighbours) := by
      rw [← hacc, surviving, List.filter_singleton]
      rcases orphaned x s.toLevelStore l.2.ref with _ | _
      · simp only [Bool.false_eq_true, if_false, Bool.not_false, cond_true, List.map_singleton, Prod.mk.injEq, true_and]
        split
        · rw [List.take_of_length_le (by simpa using ‹_›)]
        · rw [List.take_append_of_le_length (by omega), List.take_of_length_le hlen]
      · simp [List.take_of_length_le hlen]
    have hlen₁ : acc₁.2.length ≤ c.maxNeighbours := by
      rw [hacc₁, List.length_take]
      exact min_le_left _ _
    obtain ⟨hr, hsame, hbut, hA, hout⟩ := unlinkLinks_spec hx hq₂ ht₂.chains (ht₂.live_iff.mpr hlive) hA₂ hX₂ hnd
      hlen₁ h2
    have hsurv : surviving x s₂.toLevelStore ls = surviving x s.toLevelStore ls :=
      List.filter_congr fun l' hl' => by
        have hV := (ha.named _ (hX l' (List.mem_cons_of_mem _ hl'))).1
        rw [hsame₂.orphaned_eq (ha.sound _ hV).live (ha.ne hV)]
    have hr₂ : Rewired s s₂ := .of_touch hq₂ ht₂
    refine ⟨hr₂.trans hr, (SameRecord.of_touch ht₂ hlive hne).trans hsame, hsame₂.trans hbut, ?_, ?_⟩
    · convert hA using 1
      ext b
      simp only [Set.mem_sdiff, Set.mem_ofPred_eq, List.mem_cons, Set.mem_singleton_iff,
        NID.clearIncoming_ref, and_assoc]
      refine and_congr_right fun _ => ⟨fun h' => ⟨fun hb => h' ⟨l, .inl rfl, hb.symm⟩, ?_⟩, ?_⟩
      · rintro ⟨l', hl', he⟩
        exact h' ⟨l', .inr hl', he⟩
      · rintro ⟨h1, h2⟩ ⟨l', rfl | hl', he⟩
        · exact h1 he.symm
        · exact h2 ⟨l', hl', he⟩
    · rw [hout, hacc₁, hsurv]
      simp only [hsame₂.nodeAt_eq]
      rw [take_append_take, surviving, surviving, surviving, List.append_assoc, List.append_assoc, ← List.map_append,
        ← List.map_append, ← List.filter_append, List.singleton_append]

/-- Clearing slots of a record of the chain of `x`. -/
theorem freeCells_spec (hq : s.Quiet) (hs : s.Chains) (hlive : s.Live x) (ho : d.ref ∈ s.chain x)
    {freed : List ℕ} (h : updateIncoming d (freed.map fun i => (i, none)) s = (.ok (), s')) :
    s'.Quiet ∧ Touch x s.toLevelStore s'.toLevelStore ∧ s'.slots x = s.slots x ∧ s'.chain x = s.chain x ∧
      ∀ o, s'.cells o = if o = d.ref then writeSlots (freed.map fun i => (i, none)) (s.cells o) else s.cells o := by
  rcases freed with _ | ⟨i, is⟩
  · simp only [updateIncoming, List.map_nil, if_true, Prog.pure_apply, Prod.mk.injEq, true_and] at h
    subst h
    exact ⟨hq, .refl hs, rfl, rfl, fun o => by simp⟩
  · obtain ⟨h1, h2, h3, h4, h5, -⟩ := updateIncoming_spec hq hs hlive ho (by simp) h
    refine ⟨h1, h2, h3, h4, fun o => ?_⟩
    rw [h5]
    split
    · rename_i ho
      rw [ho]
    · rfl

theorem incomingLinks_map {β : Type} (f : NID → β) (slots : List (Option NID)) :
    (incomingLinks slots).map (fun l => f l.2) = slots.reduceOption.map f := by
  rw [← takenSlots_snd slots, List.map_map]
  rfl

/-- Severing the links of one record of the chain and freeing their slots. -/
theorem unlinkRecord_spec (hx : node.nid = ⟨x, false⟩) {s₂ : LevelState} {freed : List ℕ} {out out₂ : List Node}
    (hq : s.Quiet) (hs : s.Chains) (hlive : s.Live x) (ha : Around w s.toLevelStore V x X) (ho : d.ref ∈ s.chain x)
    (hX : ∀ n ∈ (s.cells d.ref).reduceOption, n.ref ∈ X)
    (hnd : ((s.cells d.ref).reduceOption.map NID.ref).Nodup) (hlen : out.length ≤ c.maxNeighbours)
    (hfold : (incomingLinks (s.cells d.ref)).foldlM (unlinkLink c node) ([], out) s = (.ok (freed, out₂), s₂))
    (hupd : updateIncoming d (freed.map fun i => (i, none)) s₂ = (.ok (), s')) :
    Rewired s s' ∧ SameBut x s.toLevelStore s'.toLevelStore ∧ s'.slots x = s.slots x ∧ s'.chain x = s.chain x ∧
      (∀ o ∈ s.chain x, o ≠ d.ref → s'.cells o = s.cells o) ∧
      (s'.cells d.ref).reduceOption =
        (s.cells d.ref).reduceOption.filter (fun n => orphaned x s.toLevelStore n.ref) ∧
      Around w s'.toLevelStore V x (X \ {b | ∃ n ∈ (s.cells d.ref).reduceOption, n.ref = b}) ∧
      out₂ = (out ++ ((s.cells d.ref).reduceOption.filter fun n => !orphaned x s.toLevelStore n.ref).map fun n =>
        nodeAt s.toLevelStore n.ref).take c.maxNeighbours := by
  have hlinks (n : NID) : (∃ l ∈ incomingLinks (s.cells d.ref), l.2 = n) ↔ n ∈ (s.cells d.ref).reduceOption := by
    rw [← takenSlots_snd (s.cells d.ref), List.mem_map]
    rfl
  obtain ⟨hr₂, hsame, hbut₂, hA₂, hres⟩ := unlinkLinks_spec hx hq hs hlive ha
    (fun l hl => hX l.2 ((hlinks _).mp ⟨l, hl, rfl⟩)) (incomingLinks_map NID.ref (s.cells d.ref) ▸ hnd) hlen hfold
  simp only [List.nil_append, Prod.mk.injEq] at hres
  obtain ⟨rfl, hout₂⟩ := hres
  obtain ⟨hq₃, ht₃, hsl₃, hch₃, hcell₃⟩ := freeCells_spec hr₂.quiet hr₂.chains ((hr₂.live_iff x).mpr hlive)
    (hsame.chain ▸ ho) hupd
  refine ⟨hr₂.trans (.of_touch hq₃ ht₃), hbut₂.trans (.of_touch ht₃), hsl₃.trans hsame.slots, hch₃.trans hsame.chain,
    fun o ho hne => by rw [hcell₃, if_neg hne, hsame.cells o ho], ?_, ?_, ?_⟩
  · have hfreed : ((surviving x s.toLevelStore (incomingLinks (s.cells d.ref))).map Prod.fst).map (fun i => (i, none)) =
        ((takenSlots (s.cells d.ref)).filter fun l => !orphaned x s.toLevelStore l.2.ref).map
          fun l => (l.1, (none : Option NID)) := List.map_map
    rw [hcell₃, if_pos rfl, hsame.cells d.ref ho, hfreed,
      reduceOption_clear fun n : NID => !orphaned x s.toLevelStore n.ref]
    exact List.filter_congr fun n _ => Bool.not_not _
  · have hset : {b | ∃ n ∈ (s.cells d.ref).reduceOption, n.ref = b} =
        {b | ∃ l ∈ incomingLinks (s.cells d.ref), l.2.ref = b} := by
      ext b
      constructor
      · rintro ⟨n, hn, he⟩
        obtain ⟨l, hl, rfl⟩ := (hlinks n).mpr hn
        exact ⟨l, hl, he⟩
      · rintro ⟨l, hl, he⟩
        exact ⟨l.2, (hlinks _).mp ⟨l, hl, rfl⟩, he⟩
    rw [hset]
    exact hA₂.touch ht₃
  · rw [hout₂, ← takenSlots_snd (s.cells d.ref), List.filter_map, List.map_map]
    rfl

/-- The chain part of `unlink_neighbours`. -/
theorem unlinkChain_spec (hx : node.nid = ⟨x, false⟩) :
    ∀ {l p : List ℕ} {fuel : ℕ} {cur : Option NID} {out res : List Node} {s s' : LevelState}
      {X : Set ℕ}, s.Quiet → s.Chains → s.Live x → Around w s.toLevelStore V x X →
      s.chain x = p ++ l → Trail s.next (cur.map NID.ref) l →
      (∀ o ∈ l, ∀ n ∈ (s.cells o).reduceOption, n.ref ∈ X) →
      ((l.flatMap fun o => (s.cells o).reduceOption).map NID.ref).Nodup → out.length ≤ c.maxNeighbours →
      unlinkChain c node fuel cur out s = (.ok res, s') →
      Rewired s s' ∧ SameBut x s.toLevelStore s'.toLevelStore ∧ s'.slots x = s.slots x ∧ s'.chain x = s.chain x ∧
        (∀ o ∈ p, s'.cells o = s.cells o) ∧
        Around w s'.toLevelStore V x (X \ {b | ∃ o ∈ l, ∃ n ∈ (s.cells o).reduceOption, n.ref = b}) ∧
        (l.flatMap fun o => (s'.cells o).reduceOption) =
          (l.flatMap fun o => (s.cells o).reduceOption).filter (fun n => orphaned x s.toLevelStore n.ref) ∧
        res = (out ++ ((l.flatMap fun o => (s.cells o).reduceOption).filter fun n =>
          !orphaned x s.toLevelStore n.ref).map fun n => nodeAt s.toLevelStore n.ref).take c.maxNeighbours
  | [], p, fuel, cur, out, res, s, s', X, hq, hs, _, ha, _, hl, _, _, hlen, h => by
    obtain rfl : cur = none := by simpa [Trail] using hl
    simp only [unlinkChain, Prog.pure_apply, Prod.mk.injEq, Except.ok.injEq] at h
    obtain ⟨rfl, rfl⟩ := h
    exact ⟨.refl hq hs, .refl _ _, rfl, rfl, fun _ _ => rfl, by simpa using ha, rfl,
      by simp [List.take_of_length_le hlen]⟩
  | o :: l, p, fuel, cur, out, res, s, s', X, hq, hs, hlive, ha, hp, ⟨ho, t, ht, hl⟩, hX, hnd, hlen, h => by
    obtain ⟨cur, rfl, rfl⟩ := Option.map_eq_some_iff.mp ho
    cases fuel with
    | zero => simp [unlinkChain] at h
    | succ fuel =>
      rw [unlinkChain, Prog.bind_returns] at h
      obtain ⟨e, s₁, he, h⟩ := h
      rw [fetchOverflow_returns hq] at he
      obtain ⟨⟨q, hlook, rfl⟩, rfl⟩ := he
      obtain rfl : t = q.entry.overflow.map NID.ref :=
        Option.some.inj (ht.symm.trans (next_of_lookup hlook))
      rw [← cells_of_lookup hlook, Prog.bind_returns] at h
      obtain ⟨⟨freed, out₂⟩, s₂, hfold, h⟩ := h
      rw [Prog.bind_returns] at h
      obtain ⟨_, s₃, hupd, h⟩ := h
      rw [List.flatMap_cons, List.map_append, List.nodup_append] at hnd
      obtain ⟨hr₃, hbut₃, hsl₃, hch₃, hcell₃, hhere, hA₃, hout₃⟩ := unlinkRecord_spec hx hq hs hlive ha
        (by simp [hp]) (hX _ (by simp)) hnd.1 hlen hfold hupd
      have hlive₃ : s₃.Live x := (hr₃.live_iff x).mpr hlive
      -- the rest of the walk is the rest of the chain still
      have htrail : Trail s₃.next (q.entry.overflow.map NID.ref) l := by
        have h1 := hr₃.chains.trail x hlive₃
        rw [hch₃, hp] at h1
        obtain ⟨-, t', -, h2⟩ := Trail.suffix p h1
        rwa [hl.head_eq, ← h2.head_eq]
      have hndl : (p ++ cur.ref :: l).Nodup := hp ▸ (hs.trail x hlive).nodup
      have hother : ∀ o ∈ p ++ l, s₃.cells o = s.cells o := fun o ho =>
        hcell₃ o (hp ▸ List.perm_middle.mem_iff.mpr (.tail _ ho)) fun he =>
          (List.nodup_middle.mp hndl).notMem (he ▸ ho)
      have hrest : ∀ o ∈ l, s₃.cells o = s.cells o := fun o ho => hother o (List.mem_append_right _ ho)
      have hflat : (l.flatMap fun o => (s₃.cells o).reduceOption) =
          l.flatMap fun o => (s.cells o).reduceOption :=
        List.flatMap_congr fun o ho => by rw [hrest o ho]
      have hlen₃ : out₂.length ≤ c.maxNeighbours := by
        rw [hout₃, List.length_take]
        exact min_le_left _ _
      obtain ⟨hr, hbut, hsl, hch, hpre, hA, hleft, hout⟩ := unlinkChain_spec hx (p := p ++ [cur.ref]) hr₃.quiet
        hr₃.chains hlive₃ hA₃ (by simp [hch₃, hp]) htrail
        (fun o ho n hn => by
          rw [hrest o ho] at hn
          refine ⟨hX o (by simp [ho]) n hn, ?_⟩
          rintro ⟨m, hm, he⟩
          exact hnd.2.2 m.ref (List.mem_map_of_mem hm) n.ref
            (List.mem_map_of_mem (List.mem_flatMap.mpr ⟨o, ho, hn⟩)) he)
        (by rw [hflat]; exact hnd.2.1) hlen₃ h
      -- being an orphan is a matter of the other links, which are the same all the way
      have horph : ∀ n ∈ l.flatMap fun o => (s.cells o).reduceOption,
          orphaned x s₃.toLevelStore n.ref = orphaned x s.toLevelStore n.ref := fun n hn => by
        obtain ⟨o, ho, hn⟩ := List.mem_flatMap.mp hn
        have hV := (ha.named _ (hX o (by simp [ho]) n hn)).1
        exact hbut₃.orphaned_eq (ha.sound _ hV).live (ha.ne hV)
      refine ⟨hr₃.trans hr, hbut₃.trans hbut, hsl.trans hsl₃, hch.trans hch₃, fun o ho => ?_, ?_, ?_, ?_⟩
      · rw [hpre o (List.mem_append_left _ ho), hother o (List.mem_append_left _ ho)]
      · convert hA using 1
        ext b
        simp only [Set.mem_sdiff, Set.mem_ofPred_eq, and_assoc, List.exists_mem_cons_iff, not_or]
        refine and_congr_right fun _ => and_congr_right fun _ => not_congr ?_
        exact exists_congr fun o => and_congr_right fun ho => by rw [hrest o ho]
      · rw [List.flatMap_cons, List.flatMap_cons, List.filter_append, hpre cur.ref (by simp), hhere, hleft, hflat]
        exact congrArg _ (List.filter_congr horph)
      · have hsurv : ((l.flatMap fun o => (s.cells o).reduceOption).filter fun n => !orphaned x s₃.toLevelStore n.ref) =
            (l.flatMap fun o => (s.cells o).reduceOption).filter fun n => !orphaned x s.toLevelStore n.ref :=
          List.filter_congr fun n hn => congrArg _ (horph n hn)
        rw [hout, hflat, hsurv, hout₃, take_append_take, List.flatMap_cons, List.filter_append, List.map_append,
          List.append_assoc]
        simp only [hbut₃.nodeAt_eq]

/-- The link with the flag. -/
def flag (n : Node) : Node := ⟨n.nid.setIncoming, n.vid⟩

theorem flaggedLinks_eq (xs : List (Option Node)) : flaggedLinks xs = takenSlots (xs.map (Option.map flag)) := by
  rw [flaggedLinks, takenSlots, List.zipIdx_map, List.filterMap_map]
  refine List.filterMap_congr fun w _ => ?_
  rcases w with ⟨_ | n, i⟩ <;> rfl

theorem flaggedLinks_map {β : Type} (f : NID → β) (xs : List (Option Node)) :
    ((flaggedLinks xs).map fun l => (l.1, l.2.nid)).map (fun l => f l.2) =
      (xs.reduceOption.map flag).map fun n => f n.nid := by
  rw [flaggedLinks_eq, ← List.reduceOption_map, ← takenSlots_snd, List.map_map, List.map_map]
  rfl

/-- Flagging every link of a list. -/
theorem writeSlots_flagged (xs : List (Option Node)) :
    writeSlots ((flaggedLinks xs).map fun l => (l.1, some l.2)) xs = xs.map (Option.map flag) := by
  have hws : (flaggedLinks xs).map (fun l => (l.1, some l.2)) = xs.zipIdx.filterMap
      fun w => (w.1.map fun n => some (flag n)).map fun v => (w.2, v) := by
    rw [flaggedLinks, List.map_filterMap]
    refine List.filterMap_congr fun w _ => ?_
    rcases w with ⟨_ | n, i⟩ <;> rfl
  rw [hws, writeSlots_collect (fun o => o.map fun n => some (flag n))]
  refine List.map_congr_left fun o _ => ?_
  rcases o with _ | n <;> rfl

/-- What `unlink_neighbours` does to the level. -/
structure Unlinked (c : LevelCtx) (w : ℕ) (s s' : LevelState) (V : Set ℕ) (x : ℕ) (out : List Node) : Prop where
  rewired : Rewired s s'
  atRest : Mutual w s'.toLevelStore (V \ {x})
  same : SameBut x s.toLevelStore s'.toLevelStore
  links : s'.links x = ((s.links x).map flag).filter fun n => orphaned x s.toLevelStore n.nid.ref
  chained : s'.chained x = (s.chained x).filter fun n => orphaned x s.toLevelStore n.ref
  reports : out = (((s.names x).filter fun b => !orphaned x s.toLevelStore b).map (nodeAt s.toLevelStore)).take
    c.maxNeighbours

theorem unlinkNeighbours_unlinked (hq : s.Quiet) (hs : s.Chains) (hm : Mutual w s.toLevelStore V) (hxV : x ∈ V)
    (hx : node.nid = ⟨x, false⟩) {out : List Node} (h : unlinkNeighbours c node s = (.ok out, s')) :
    Unlinked c w s s' V x out := by
  obtain ⟨hA₀, hset⟩ := hm.around hxV
  have hsound := hset.sound
  have hnd := hsound.nodup
  rw [names, List.nodup_append] at hnd
  rw [unlinkNeighbours, Prog.bind_returns] at h
  obtain ⟨e, _, he, h⟩ := h
  rw [fetch_returns hq] at he
  obtain ⟨he, rfl⟩ := he
  replace he : s.entry x = some e := by rwa [hx] at he
  rw [← slots_of_entry he] at h
  -- the links are flagged
  rw [Prog.bind_returns] at h
  obtain ⟨_, s₁, h₁, h⟩ := h
  obtain ⟨hq₁, ht₁, hsl₁, hh₁, hch₁, -⟩ := updateSlots_spec hq hs h₁
  rw [hx] at ht₁ hsl₁ hh₁ hch₁
  rw [writeSlots_flagged] at hsl₁
  have hr₁ : Rewired s s₁ := .of_touch hq₁ ht₁
  have hbut₁ : SameBut x s.toLevelStore s₁.toLevelStore := .of_touch ht₁
  have hlive₁ : s₁.Live x := (hr₁.live_iff x).mpr hsound.live
  have horph {t : LevelState} (ht : SameBut x s.toLevelStore t.toLevelStore) {b : ℕ} (hb : b ∈ s.names x) :
      orphaned x t.toLevelStore b = orphaned x s.toLevelStore b := by
    have hV := (hA₀.named b hb).1
    exact ht.orphaned_eq (hA₀.sound _ hV).live (hA₀.ne hV)
  -- the neighbours in the list are severed
  rw [Prog.bind_returns] at h
  obtain ⟨⟨freed, out₂⟩, s₂, h₂, h⟩ := h
  set ls := (flaggedLinks (s.slots x)).map fun l => (l.1, l.2.nid) with hls
  have hrefs : ls.map (fun l => l.2.ref) = (s.links x).map fun n => n.nid.ref :=
    (flaggedLinks_map NID.ref (s.slots x)).trans List.map_map
  have hpair (b : ℕ) : (∃ l ∈ ls, l.2.ref = b) ↔ b ∈ (s.links x).map fun n => n.nid.ref := by
    rw [← hrefs, List.mem_map]
  obtain ⟨hr₂, hsame₂, hbut₂, hA₂, hres⟩ := unlinkLinks_spec hx hq₁ ht₁.chains hlive₁ (hA₀.touch ht₁)
    (fun l hl => List.mem_append_left _ ((hpair l.2.ref).mp ⟨l, hl, rfl⟩)) (hrefs ▸ hnd.1) (Nat.zero_le _) h₂
  simp only [List.nil_append, Prod.mk.injEq, hbut₁.nodeAt_eq] at hres
  have hsurv : surviving x s₁.toLevelStore ls = surviving x s.toLevelStore ls :=
    List.filter_congr fun l hl => congrArg _ (horph hbut₁ (List.mem_append_left _ ((hpair _).mp ⟨l, hl, rfl⟩)))
  rw [hsurv] at hres
  obtain ⟨rfl, hout₂⟩ := hres
  -- their slots are freed
  rw [Prog.bind_returns] at h
  obtain ⟨_, s₃, h₃, h⟩ := h
  obtain ⟨hq₃, ht₃, hsl₃, hh₃, hch₃, -⟩ := updateSlots_spec hr₂.quiet hr₂.chains h₃
  rw [hx] at ht₃ hsl₃ hh₃ hch₃
  have hr₃ : Rewired s s₃ := (hr₁.trans hr₂).trans (.of_touch hq₃ ht₃)
  have hbut₃ : SameBut x s.toLevelStore s₃.toLevelStore := (hbut₁.trans hbut₂).trans (.of_touch ht₃)
  have hlinks₃ : s₃.links x = ((s.links x).map flag).filter fun n => orphaned x s.toLevelStore n.nid.ref := by
    have hfreed : ((surviving x s.toLevelStore ls).map Prod.fst).map (fun slot => (slot, none)) =
        ((takenSlots (s₁.slots x)).filter fun l => !orphaned x s.toLevelStore l.2.nid.ref).map
          fun l => (l.1, (none : Option Node)) := by
      rw [hsl₁, ← flaggedLinks_eq, surviving, hls, List.filter_map, List.map_map, List.map_map]
      rfl
    rw [links, hsl₃, hsame₂.slots, hfreed,
      reduceOption_clear fun n : Node => !orphaned x s.toLevelStore n.nid.ref, hsl₁, List.reduceOption_map]
    exact List.filter_congr fun n _ => Bool.not_not _
  have hlive₃ : s₃.Live x := (hr₃.live_iff x).mpr hsound.live
  have hchained₃ : s₃.chained x = s.chained x := hch₃.trans (hsame₂.chained.trans hch₁)
  have hlen₂ : out₂.length ≤ c.maxNeighbours := by
    rw [hout₂, List.length_take]
    exact min_le_left _ _
  -- those in the chain
  rw [chainFuel_bind] at h
  have htrail : Trail s₃.next (e.overflow.map NID.ref) (s₃.chain x) := by
    rw [← head_of_entry he, ← hh₁, ← hsame₂.head, ← hh₃]
    exact hr₃.chains.trail x hlive₃
  obtain ⟨hr₄, hbut₄, hsl₄, hch₄, -, hA₄, hleft, hout⟩ := unlinkChain_spec hx (p := []) (l := s₃.chain x) hq₃
    ht₃.chains hlive₃ (hA₂.touch ht₃) rfl htrail
    (fun o ho n hn => by
      have hmem : n ∈ s.chained x := hchained₃ ▸ List.mem_flatMap.mpr ⟨o, ho, hn⟩
      refine ⟨mem_names_of_chained hmem, fun h' => ?_⟩
      exact hnd.2.2 n.ref ((hpair _).mp h') n.ref (List.mem_map_of_mem hmem) rfl)
    (by
      have : (s₃.chain x).flatMap (fun o => (s₃.cells o).reduceOption) = s.chained x := hchained₃
      rw [this]
      exact hnd.2.1) hlen₂ h
  have hnone : (({a | a ∈ s.names x} \ {b | ∃ l ∈ ls, l.2.ref = b}) \
      {b | ∃ o ∈ s₃.chain x, ∃ n ∈ (s₃.cells o).reduceOption, n.ref = b} : Set ℕ) = ∅ := by
    ext b
    simp only [Set.mem_sdiff, Set.mem_ofPred_eq, Set.mem_empty_iff_false, iff_false, not_and, not_not,
      hpair]
    rintro ⟨hb, hno⟩
    rcases mem_names.mp hb with ⟨n, hn, rfl⟩ | ⟨n, hn, rfl⟩
    · exact absurd (List.mem_map_of_mem hn) hno
    · rw [← hchained₃] at hn
      obtain ⟨o, ho, hn⟩ := List.mem_flatMap.mp hn
      exact ⟨o, ho, n, hn, rfl⟩
  rw [hnone] at hA₄
  change _ = List.filter _ (s₃.chained x) at hleft
  change _ = List.take _ (_ ++ List.map _ (List.filter _ (s₃.chained x))) at hout
  rw [hchained₃] at hleft hout
  have hchain (n : NID) (hn : n ∈ s.chained x) :
      orphaned x s₃.toLevelStore n.ref = orphaned x s.toLevelStore n.ref := horph hbut₃ (mem_names_of_chained hn)
  refine ⟨hr₃.trans hr₄, hA₄.toMutual, hbut₃.trans hbut₄, ?_, ?_, ?_⟩
  · rw [← hlinks₃, links, links, hsl₄]
  · rw [← List.filter_congr hchain, ← hleft, chained, hch₄]
  · have hl : (surviving x s.toLevelStore ls).map (fun l => nodeAt s.toLevelStore l.2.ref) =
        (((s.links x).map fun n => n.nid.ref).filter fun b => !orphaned x s.toLevelStore b).map
          (nodeAt s.toLevelStore) := by
      rw [← hrefs, List.filter_map, List.map_map]
      rfl
    rw [hout, hout₂, take_append_take, hl, List.filter_congr fun n hn => congrArg not (hchain n hn), names,
      List.filter_append, List.map_append]
    simp only [hbut₃.nodeAt_eq]
    rw [List.filter_map (f := NID.ref), List.map_map]
    rfl

/-! ### Reading the orphans back -/

theorem resolveNode_spec (hq : s.Quiet) {nid : NID} {n : Node}
    (h : resolveNode nid s = (.ok n, s')) : s = s' ∧ n.nid = nid ∧ s.ownerOf nid.ref = some n.vid := by
  rw [resolveNode, Prog.bind_returns] at h
  obtain ⟨e, _, he, h⟩ := h
  rw [fetch_returns hq] at he
  obtain ⟨he, rfl⟩ := he
  simp only [Prog.pure_apply, Prod.mk.injEq, Except.ok.injEq] at h
  obtain ⟨rfl, rfl⟩ := h
  exact ⟨rfl, rfl, ownerOf_of_entry he⟩

theorem resolveNode_live (hq : s.Quiet) {nid : NID} (hl : s.Live nid.ref) :
    resolveNode nid.clearIncoming s = (.ok (nodeAt s.toLevelStore nid.ref), s) := by
  obtain ⟨e, he⟩ := hl.exists_entry
  have hf : fetch nid.clearIncoming s = (.ok e, s) := (fetch_returns hq).mpr ⟨he, rfl⟩
  rw [resolveNode, Prog.bind_apply, hf, nodeAt, ownerOf_of_entry he]
  rfl

/-- The walk resolves the links of the chain one after the other. -/
theorem incomingChain_eq (hq : s.Quiet) : ∀ {l : List ℕ} {fuel : ℕ} {cur : Option NID},
    Trail s.next (cur.map NID.ref) l → l.length ≤ fuel → incomingChain fuel cur s =
      (l.flatMap fun o => (s.cells o).reduceOption).mapM (fun nid => resolveNode nid.clearIncoming) s
  | [], fuel, cur, hl, _ => by
    obtain rfl : cur = none := by simpa [Trail] using hl
    rw [incomingChain]
    rfl
  | o :: l, fuel + 1, cur, ⟨ho, t, ht, hl⟩, hlen => by
    obtain ⟨cur, rfl, rfl⟩ := Option.map_eq_some_iff.mp ho
    obtain ⟨q, hlook, rfl⟩ := Option.map_eq_some_iff.mp ht
    rw [incomingChain, Prog.bind_apply, (fetchOverflow_returns hq).mpr ⟨⟨q, hlook, rfl⟩, rfl⟩, List.flatMap_cons,
      List.mapM_append, cells_of_lookup hlook]
    refine Prog.bind_congr fun here s' hhere => ?_
    obtain ⟨rfl, -⟩ := Prog.mapM_returns (fun _ _ => True)
      (fun n _ m s' hm => ⟨(resolveNode_spec hq hm).1, trivial⟩) hhere
    rw [Prog.bind_apply, incomingChain_eq hq hl (by simpa using hlen), Prog.bind_apply]

theorem nodeAt_ref {s : LevelStore} {n : Node} (hi : n.nid.incoming = false) (h : s.ownerOf n.nid.ref = some n.vid) :
    nodeAt s n.nid.ref = n := by
  rw [nodeAt, h, ← hi]
  rfl

/-- The nodes at a list of references. -/
theorem mem_map_nodeAt {s : LevelStore} {bs : List ℕ} (hlive : ∀ b ∈ bs, s.Live b) {n : Node} :
    n ∈ bs.map (nodeAt s) ↔ Good s {a | s.Live a} n ∧ n.nid.ref ∈ bs := by
  rw [List.mem_map]
  constructor
  · rintro ⟨b, hb, rfl⟩
    obtain ⟨e, he⟩ := (hlive b hb).exists_entry
    exact ⟨⟨hlive b hb, rfl, by simp [nodeAt, ownerOf_of_entry he]⟩, hb⟩
  · rintro ⟨hn, hb⟩
    exact ⟨_, hb, nodeAt_ref hn.outgoing hn.owner⟩

/-- Where all links of the list are flagged, `incoming_neighbours` reads back the
nodes the record names. -/
theorem incomingNeighbours_eq (hq : s.Quiet) (hs : s.Chains) (hx : node.nid = ⟨x, false⟩) (hlive : s.Live x)
    (hflag : ∀ n ∈ s.links x, n.nid.incoming = true ∧ s.ownerOf n.nid.ref = some n.vid)
    (hchained : ∀ n ∈ s.chained x, s.Live n.ref) :
    incomingNeighbours node s = (.ok ((s.names x).map (nodeAt s.toLevelStore)), s) := by
  obtain ⟨e, he⟩ := hlive.exists_entry
  have hl : e.neighbours.reduceOption = s.links x := by rw [links, slots_of_entry he]
  have hf : fetch node.nid s = (.ok e, s) := (fetch_returns hq).mpr ⟨by rw [hx]; exact he, rfl⟩
  have htrail := hs.trail x hlive
  have hchain : incomingChain s.overflows.keys.length e.overflow s =
      (.ok ((s.chained x).map fun n => nodeAt s.toLevelStore n.ref), s) := by
    rw [incomingChain_eq hq (head_of_entry he ▸ htrail) (length_trail_le htrail)]
    exact Prog.mapM_run fun n hn => resolveNode_live hq (hchained n hn)
  have hown : (s.links x).map (fun n => (⟨n.nid.clearIncoming, n.vid⟩ : Node)) =
      (s.links x).map fun n => nodeAt s.toLevelStore n.nid.ref :=
    List.map_congr_left fun n hn => by
      rw [nodeAt, (hflag n hn).2]
      rfl
  rw [incomingNeighbours, Prog.bind_apply, hf]
  show (chainFuel >>= _) s = _
  rw [chainFuel_bind, Prog.bind_apply, hchain, hl, List.filter_eq_self.mpr fun n hn => (hflag n hn).1, hown, names,
    List.map_append, List.map_map, List.map_map]
  rfl

namespace Unlinked

variable {s s' : LevelState} {out : List Node}

/-- The node goes on naming the orphans. -/
theorem names (h : Unlinked c w s s' V x out) :
    s'.names x = (s.names x).filter fun b => orphaned x s.toLevelStore b := by
  rw [LevelStore.names, LevelStore.names, h.links, h.chained, List.filter_append, List.filter_map, List.filter_map,
    List.filter_map, List.map_map]
  rfl

theorem not_named (h : Unlinked c w s s' V x out) {a : ℕ} (ha : a ∈ V) (hne : a ≠ x) : x ∉ s'.names a :=
  fun hmem => (h.atRest.symm a ⟨ha, hne⟩ x hmem).1.2 rfl

/-- The other nodes keep their other links. -/
theorem kept (h : Unlinked c w s s' V x out) {a : ℕ} (ha : a ∈ V) (hne : a ≠ x) (hlive : s.Live a) :
    (s'.links a).Perm (otherLinks x s.toLevelStore a) ∧ (s'.chained a).Perm (otherChained x s.toLevelStore a) := by
  have hno := h.not_named ha hne
  have hl : otherLinks x s'.toLevelStore a = s'.links a := List.filter_eq_self.mpr fun n hn =>
    decide_eq_true_iff.mpr fun he : n.nid.ref = x => hno (he ▸ mem_names_of_link hn)
  have hc : otherChained x s'.toLevelStore a = s'.chained a := List.filter_eq_self.mpr fun n hn =>
    decide_eq_true_iff.mpr fun he : n.ref = x => hno (he ▸ mem_names_of_chained hn)
  exact ⟨hl ▸ h.same.links a hlive hne, hc ▸ h.same.chained a hlive hne⟩

/-- Orphans are left without an outgoing link. -/
theorem orphaned_iff (h : Unlinked c w s s' V x out) {a : ℕ} (ha : a ∈ V) (hne : a ≠ x) (hlive : s.Live a) :
    orphaned x s.toLevelStore a = true ↔ ∀ m ∈ s'.links a, m.nid.incoming = true := by
  have hp := (h.kept ha hne hlive).1
  rw [orphaned, List.isEmpty_iff]
  constructor
  · intro he m hm
    rw [he] at hp
    exact absurd (hp.eq_nil ▸ hm) List.not_mem_nil
  · refine fun hall => List.eq_nil_iff_forall_not_mem.mpr fun m hm => ?_
    have hm := hp.mem_iff.mpr hm
    have := (h.atRest.sound a ⟨ha, hne⟩).outgoing m hm
    simp [hall m hm] at this

end Unlinked

/-- **What `unlink_neighbours` leaves.** In a level at rest, if no storage call fails, nothing
names the node afterwards, it has no outgoing link and no other link has changed. What
`incoming_neighbours` reads back are those that named it and are left without an outgoing link;
the others are reported, as far as they fit in a list. -/
theorem unlink_neighbours_severs (hq : s.Quiet) (hs : s.Chains)
    (hm : Mutual c.maxNeighbours s.toLevelStore {a | s.Live a}) (hn : Good s.toLevelStore {a | s.Live a} node)
    {out : List Node} (h : unlinkNeighbours c node s = (.ok out, s')) :
    (∀ a, s'.Live a ↔ s.Live a) ∧
    (∀ a, s.Live a → a ≠ node.nid.ref → node.nid.ref ∉ s'.names a) ∧
    (∀ n ∈ s'.links node.nid.ref, n.nid.incoming = true) ∧
    (∀ a, s.Live a → a ≠ node.nid.ref →
      (s'.links a).Perm ((s.links a).filter fun n => n.nid.ref ≠ node.nid.ref) ∧
      (s'.chained a).Perm ((s.chained a).filter fun n => n.ref ≠ node.nid.ref)) ∧
    (∃ found, incomingNeighbours node s' = (.ok found, s') ∧ (found.map fun n => n.nid.ref).Nodup ∧
      ∀ n, n ∈ found ↔ Good s.toLevelStore {a | s.Live a} n ∧ node.nid.ref ∈ s.names n.nid.ref ∧
        ∀ m ∈ s'.links n.nid.ref, m.nid.incoming = true) ∧
    ∃ kept : List Node, out = kept.take c.maxNeighbours ∧ (kept.map fun n => n.nid.ref).Nodup ∧
      ∀ n, n ∈ kept ↔ Good s.toLevelStore {a | s.Live a} n ∧ node.nid.ref ∈ s.names n.nid.ref ∧
        ∃ m ∈ s'.links n.nid.ref, m.nid.incoming = false := by
  have hx : node.nid = ⟨node.nid.ref, false⟩ := by rw [← hn.outgoing]
  have hxL := hn.mem
  generalize node.nid.ref = x at hx hxL ⊢
  have hu := unlinkNeighbours_unlinked hq hs hm hxL hx h
  have hsound := hm.sound x hxL
  have hlive (a : ℕ) : s'.Live a ↔ s.Live a := hu.rewired.live_iff a
  -- a node that names `x` is one that `x` names
  have hback {a : ℕ} (ha : s.Live a) : x ∈ s.names a ↔ a ∈ s.names x :=
    ⟨fun h' => (hm.symm a ha x h').2, fun h' => (hm.symm x hxL a h').2⟩
  have hnear : ∀ a ∈ s.names x, s.Live a ∧ a ≠ x := fun a ha =>
    ⟨(hm.symm x hxL a ha).1, fun he => hsound.irrefl (he ▸ ha)⟩
  have hflag : ∀ n ∈ s'.links x, n.nid.incoming = true ∧ s'.ownerOf n.nid.ref = some n.vid := fun n hn => by
    obtain ⟨m, hm', rfl⟩ := List.mem_map.mp (List.mem_of_mem_filter (hu.links ▸ hn))
    exact ⟨rfl, (hu.rewired.ownerOf _).trans (hsound.owner m hm')⟩
  have hsub : ∀ a ∈ s'.names x, s'.Live a := fun a ha =>
    (hlive a).mpr (hnear a (List.mem_of_mem_filter (hu.names ▸ ha))).1
  have hnode (p : ℕ → Bool) : ((((s.names x).filter p).map (nodeAt s.toLevelStore)).map fun n => n.nid.ref).Nodup ∧
      ∀ n, n ∈ ((s.names x).filter p).map (nodeAt s.toLevelStore) ↔
        Good s.toLevelStore {a | s.Live a} n ∧ x ∈ s.names n.nid.ref ∧ p n.nid.ref = true := by
    refine ⟨?_, fun n => ?_⟩
    · rw [List.map_map]
      exact (hsound.nodup.filter p).map fun _ _ h' => h'
    · rw [mem_map_nodeAt fun b hb => (hnear b (List.mem_of_mem_filter hb)).1, List.mem_filter]
      exact and_congr_right fun hn => and_congr_left fun _ => (hback hn.mem).symm
  refine ⟨hlive, fun a ha hne => hu.not_named ha hne, fun n hn => (hflag n hn).1,
    fun a ha hne => hu.kept ha hne ha, ⟨_, incomingNeighbours_eq hu.rewired.quiet hu.rewired.chains hx
      ((hlive x).mpr hxL) hflag fun n hn => hsub _ (mem_names_of_chained hn), ?_, fun n => ?_⟩,
    _, hu.reports, (hnode _).1, fun n => ?_⟩
  · rw [hu.names, funext hu.same.nodeAt_eq]
    exact (hnode _).1
  · rw [hu.names, funext hu.same.nodeAt_eq, (hnode _).2]
    refine and_congr_right fun hn => and_congr_right fun hx => hu.orphaned_iff hn.mem ?_ hn.mem
    exact (hnear _ ((hback hn.mem).mp hx)).2
  · rw [(hnode _).2]
    refine and_congr_right fun hn => and_congr_right fun hx => ?_
    rw [Bool.not_eq_true', ← Bool.not_eq_true, hu.orphaned_iff hn.mem (hnear _ ((hback hn.mem).mp hx)).2 hn.mem]
    simp

/-- The two nodes linked with each other. -/
theorem linked_mutual : Mutual 2 (twoNodes [some two, none] [some one, none])
    {a | (twoNodes [some two, none] [some one, none]).Live a} where
  sound a ha := by
    have hlive := ha
    rcases twoNodes_live.mp ha with rfl | rfl
    · exact ⟨hlive, by decide, by decide, by decide, by decide, by decide, by decide⟩
    · exact ⟨hlive, by decide, by decide, by decide, by decide, by decide, by decide⟩
  symm a ha b hb := by
    rcases twoNodes_live.mp ha with rfl | rfl
    · obtain rfl : b = 2 := List.mem_singleton.mp hb
      exact ⟨twoNodes_live.mpr (.inr rfl), by decide⟩
    · obtain rfl : b = 1 := List.mem_singleton.mp hb
      exact ⟨twoNodes_live.mpr (.inl rfl), by decide⟩

theorem unlink_neighbours_severs_two : ∃ s' found,
    unlinkNeighbours ⟨1, 2, 0⟩ one ⟨twoNodes [some two, none] [some one, none], [], []⟩ = (.ok [], s') ∧
      incomingNeighbours one s' = (.ok found, s') ∧ two ∈ found ∧ 1 ∉ s'.names 2 := by
  obtain ⟨s', hrun, hlinks⟩ : ∃ s', unlinkNeighbours ⟨1, 2, 0⟩ one
      ⟨twoNodes [some two, none] [some one, none], [], []⟩ = (.ok [], s') ∧ s'.links 2 = [] := ⟨_, rfl, rfl⟩
  obtain ⟨-, hnot, -, -, ⟨found, hfound, -, hmem⟩, -⟩ := unlink_neighbours_severs (c := ⟨1, 2, 0⟩)
    (s := ⟨twoNodes [some two, none] [some one, none], [], []⟩) rfl twoNodes_chains linked_mutual one_good hrun
  have htwo : (twoNodes [some two, none] [some one, none]).Live 2 := twoNodes_live.mpr (.inr rfl)
  refine ⟨s', found, hrun, hfound, (hmem two).mpr ⟨⟨htwo, rfl, rfl⟩, by decide, ?_⟩, hnot 2 htwo (by decide)⟩
  rw [show s'.links two.nid.ref = [] from hlinks]
  exact fun m hm => absurd hm List.not_mem_nil

/-- A storage whose third call cannot read its page. -/
def thirdUnread : Supply := ⟨[.done, .done, .refused ⟨"read failed", false⟩], []⟩

/-- Where the record of a neighbour cannot be read, it goes on naming the node. -/
theorem unlink_neighbours_unread : ∃ s s' : LevelState,
    s.Chains ∧ Mutual 2 s.toLevelStore {a | s.Live a} ∧ Good s.toLevelStore {a | s.Live a} one ∧
      unlinkNeighbours ⟨1, 2, 0⟩ one s = (.ok [], s') ∧ s.Live 2 ∧ one.nid.ref ∈ s'.names 2 := by
  have hnames : one.nid.ref ∈ (unlinkNeighbours ⟨1, 2, 0⟩ one
      ⟨twoNodes [some two, none] [some one, none], thirdUnread⟩).2.names 2 := by decide
  exact ⟨⟨twoNodes [some two, none] [some one, none], thirdUnread⟩, _, twoNodes_chains, linked_mutual, one_good, rfl,
    twoNodes_live.mpr (.inr rfl), hnames⟩

end IndexGraph
end Hnsw
end VsqlVector
