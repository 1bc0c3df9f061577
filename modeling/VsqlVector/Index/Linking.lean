/-
# Linking a node

`link_neighbours_locked` lands a link back for every flagged link of a node and
then clears the flags. Each turn of its walk makes one more of the others name
the node (`landLink_spec`); once all of them do, the level is at rest
(`linkNeighboursLocked_spec`).

Key definitions: `Rewired`, `Good`, `SameBut`, `Backed`.
Key theorems: `landLink_spec`, `linkNeighboursLocked_spec`.
-/
import VsqlVector.Index.Mutual

namespace VsqlVector
namespace Hnsw

open LevelStore LevelProg

/-- From `s` to `s'` the storage did not fail and only links changed. -/
structure Rewired (s s' : LevelState) : Prop where
  quiet : s'.Quiet
  chains : s'.Chains
  bone : ∀ a, s'.bone a = s.bone a

namespace Rewired

variable {s s' s'' : LevelState}

theorem refl (hq : s.Quiet) (hs : s.Chains) : Rewired s s := ⟨hq, hs, fun _ => rfl⟩

theorem trans (h : Rewired s s') (h' : Rewired s' s'') : Rewired s s'' :=
  ⟨h'.quiet, h'.chains, fun a => (h'.bone a).trans (h.bone a)⟩

theorem of_touch {a : ℕ} (hq : s'.Quiet) (ht : Touch a s.toLevelStore s'.toLevelStore) : Rewired s s' :=
  ⟨hq, ht.chains, ht.bone⟩

theorem ownerOf (h : Rewired s s') (a : ℕ) : s'.ownerOf a = s.ownerOf a := by
  rw [LevelStore.ownerOf, LevelStore.ownerOf, h.bone]

theorem live_iff (h : Rewired s s') (a : ℕ) : s'.Live a ↔ s.Live a := live_iff_of_bone (h.bone a)

theorem length_slots (h : Rewired s s') (a : ℕ) : (s'.slots a).length = (s.slots a).length :=
  length_slots_of_bone (h.bone a)

end Rewired

/-- `n` names a node of `V`, with its owner and without the flag. -/
structure Good (s : LevelStore) (V : Set ℕ) (n : Node) : Prop where
  mem : n.nid.ref ∈ V
  outgoing : n.nid.incoming = false
  owner : s.ownerOf n.nid.ref = some n.vid

theorem Good.rewired {s s' : LevelState} {V : Set ℕ} {n : Node} (h : Good s.toLevelStore V n)
    (hr : Rewired s s') : Good s'.toLevelStore V n :=
  ⟨h.mem, h.outgoing, (hr.ownerOf _).trans h.owner⟩

/-- A link names its node by reference and owner. -/
theorem Good.eq_of_ref {s : LevelStore} {V U : Set ℕ} {n m : Node} (hn : Good s V n) (hm : Good s U m)
    (h : n.nid.ref = m.nid.ref) : n = m := by
  have h1 := hn.owner
  rw [h, hm.owner] at h1
  have h2 := hn.outgoing.trans hm.outgoing.symm
  rcases n with ⟨⟨r, f⟩, v⟩
  rcases m with ⟨⟨r', f'⟩, v'⟩
  simp_all

variable {w x b : ℕ} {V X : Set ℕ}

/-- A link more in a node's list is a name more in its record. -/
theorem names_perm_of_links {s s' : LevelStore} {n : Node} (hl : (s'.links b).Perm (n :: s.links b))
    (hc : s'.chained b = s.chained b) : (s'.names b).Perm (n.nid.ref :: s.names b) := by
  rw [names, names, hc]
  exact (hl.map _).append_right _

/-- A link more in a node's chain is a name more in its record. -/
theorem names_perm_of_chained {s s' : LevelStore} {n : NID} (hl : s'.links b = s.links b)
    (hc : (s'.chained b).Perm (n :: s.chained b)) : (s'.names b).Perm (n.ref :: s.names b) := by
  rw [names, names, hl]
  exact ((hc.map NID.ref).append_left _).trans List.perm_middle

/-- A node outside `X` does not name `x`. -/
theorem Around.not_named {s : LevelStore} (h : Around w s V x X) (hb : b ∈ V) (hX : b ∉ X) :
    x ∉ s.names b := fun hx => by
  rcases h.symm b hb x hx with h' | h'
  · exact h.out h'.1
  · exact hX h'.2

/-- The record of one of the others after it comes to name `x`. -/
theorem Sound.grow {s s' : LevelStore} (h : Sound w s b) (ht : Touch b s s') (hbx : b ≠ x)
    (hx : x ∉ s.names b) (hnames : (s'.names b).Perm (x :: s.names b))
    (hout : ∀ n ∈ s'.links b, n.nid.incoming = false ∧ s.ownerOf n.nid.ref = some n.vid)
    (hflag : ∀ n ∈ s'.chained b, n.incoming = true) : Sound w s' b where
  live := ht.live_iff.mpr h.live
  width := (ht.length_slots b).trans h.width
  outgoing n hn := (hout n hn).1
  owner n hn := (ht.ownerOf _).trans (hout n hn).2
  flagged := hflag
  nodup := hnames.nodup_iff.mpr (List.nodup_cons.mpr ⟨hx, h.nodup⟩)
  irrefl hb := by
    rcases List.mem_cons.mp (hnames.mem_iff.mp hb) with hb | hb
    · exact hbx hb
    · exact h.irrefl hb

namespace IndexGraph

variable {c : LevelCtx} {s s' : LevelState} {node neighbour : Node} {out : List Node}

/-! ### One link back -/

/-- The links of `b` that do not lead to `x`. -/
def otherLinks (x : ℕ) (s : LevelStore) (b : ℕ) : List Node := (s.links b).filter fun n => n.nid.ref ≠ x

def otherChained (x : ℕ) (s : LevelStore) (b : ℕ) : List NID := (s.chained b).filter fun n => n.ref ≠ x

/-- From `s` to `s'` only `x` and links to `x` changed. -/
structure SameBut (x : ℕ) (s s' : LevelStore) : Prop where
  bone : ∀ a, s'.bone a = s.bone a
  links : ∀ a, s.Live a → a ≠ x → (otherLinks x s' a).Perm (otherLinks x s a)
  chained : ∀ a, s.Live a → a ≠ x → (otherChained x s' a).Perm (otherChained x s a)

namespace SameBut

variable {s s' s'' : LevelStore}

theorem refl (x : ℕ) (s : LevelStore) : SameBut x s s := ⟨fun _ => rfl, fun _ _ _ => .rfl, fun _ _ _ => .rfl⟩

theorem trans (h : SameBut x s s') (h' : SameBut x s' s'') : SameBut x s s'' where
  bone a := (h'.bone a).trans (h.bone a)
  links a ha hne := (h'.links a ((live_iff_of_bone (h.bone a)).mpr ha) hne).trans (h.links a ha hne)
  chained a ha hne := (h'.chained a ((live_iff_of_bone (h.bone a)).mpr ha) hne).trans (h.chained a ha hne)

theorem of_touch (ht : Touch x s s') : SameBut x s s' where
  bone := ht.bone
  links a _ hne := by rw [otherLinks, otherLinks, ht.links hne]
  chained a ha hne := by rw [otherChained, otherChained, ht.chained ha hne]

/-- The record of another node changed, but not in what it says of others than `x`. -/
theorem of_cut (ht : Touch b s s') (hl : (otherLinks x s' b).Perm (otherLinks x s b))
    (hc : (otherChained x s' b).Perm (otherChained x s b)) : SameBut x s s' where
  bone := ht.bone
  links a _ _ := by
    by_cases hab : a = b
    · exact hab ▸ hl
    · rw [otherLinks, otherLinks, ht.links hab]
  chained a ha _ := by
    by_cases hab : a = b
    · exact hab ▸ hc
    · rw [otherChained, otherChained, ht.chained ha hab]

end SameBut

/-- Whatever the chain of a node of `V` names has that node in its own list. -/
def Backed (s : LevelStore) (V : Set ℕ) : Prop :=
  ∀ a ∈ V, ∀ n ∈ s.chained a, ∃ m ∈ s.links n.ref, m.nid.ref = a

/-- Chains stay backed if only `x` and links to `x` change and the chain of `x` is. -/
theorem Backed.of_same {s s' : LevelStore} {U : Set ℕ} (h : Backed s V) (hbut : SameBut x s s')
    (hm : Mutual w s' U) (hU : ∀ a ∈ U, a ≠ x → a ∈ V)
    (hx : x ∈ U → ∀ n ∈ s'.chained x, ∃ m ∈ s'.links n.ref, m.nid.ref = x) : Backed s' U := by
  have hlive : ∀ a ∈ U, s.Live a := fun a ha => (live_iff_of_bone (hbut.bone a)).mp (hm.sound a ha).live
  intro a ha n hn
  obtain ⟨hnU, hback⟩ := hm.symm a ha _ (mem_names_of_chained hn)
  by_cases hax : a = x
  · subst hax
    exact hx ha n hn
  by_cases hnx : n.ref = x
  · rw [hnx] at hnU hback ⊢
    rcases mem_names.mp hback with hl | ⟨m, hm', rfl⟩
    · exact hl
    · -- otherwise `a` would name `x` twice, in its list and in its chain
      obtain ⟨k, hk, hkx⟩ := hx hnU m hm'
      exact absurd (hkx.trans hnx.symm) ((List.nodup_append.mp (hm.sound _ ha).nodup).2.2 _
        (List.mem_map_of_mem hk) _ (List.mem_map_of_mem hn))
  · have hn' : n ∈ otherChained x s' a := List.mem_filter.mpr ⟨hn, decide_eq_true hnx⟩
    obtain ⟨m, hm', hma⟩ := h a (hU a ha hax) n
      (List.mem_of_mem_filter ((hbut.chained a (hlive a ha) hax).mem_iff.mp hn'))
    have hmo : m ∈ otherLinks x s n.ref := List.mem_filter.mpr ⟨hm', decide_eq_true (hma ▸ hax)⟩
    exact ⟨m, List.mem_of_mem_filter ((hbut.links n.ref (hlive _ hnU) hnx).mem_iff.mpr hmo), hma⟩

/-- `link_neighbours_locked` finds a free slot in the list. -/
def hasRoom (c : LevelCtx) (slots : List (Option Node)) : Bool :=
  decide (slots.countP Option.isSome < c.maxNeighbours) && slots.any Option.isNone

theorem freeSlot_isSome (e : NeighbourEntry) : (freeSlot c e).isSome = hasRoom c e.neighbours := by
  rw [freeSlot, hasRoom]
  split <;> simp [*]

/-- In a list of full width there is room as long as a slot is empty. -/
theorem hasRoom_iff {slots : List (Option Node)} (h : slots.length = c.maxNeighbours) :
    hasRoom c slots = true ↔ none ∈ slots := by
  have hlt (hn : none ∈ slots) : slots.countP Option.isSome < slots.length := by
    refine lt_of_le_of_ne List.countP_le_length fun he => ?_
    simpa using List.countP_eq_length.mp he none hn
  rw [hasRoom, Bool.and_eq_true, decide_eq_true_eq, ← h]
  simp only [List.any_eq_true, Option.isNone_iff_eq_none, exists_eq_right]
  exact ⟨And.right, fun hn => ⟨hlt hn, hn⟩⟩

theorem freeSlot_spec {e : NeighbourEntry} {i : ℕ} (h : freeSlot c e = some i) :
    e.neighbours[i]? = some none := by
  rw [freeSlot] at h
  split at h
  · obtain ⟨o, ho, hp⟩ := getElem?_of_findIdx? h
    rw [ho, show o = none by simpa using hp]
  · simp at h

theorem landLink_spec (hcap : 0 < c.overflowCapacity) (hq : s.Quiet) (hs : s.Chains)
    (ha : Around w s.toLevelStore V x X) (hb : neighbour.nid.ref ∈ V) (hX : neighbour.nid.ref ∉ X)
    (hx : node.nid = ⟨x, false⟩) (hown : s.ownerOf x = some node.vid)
    (h : landLink c node neighbour s = (.ok out, s')) :
    s'.Quiet ∧ Touch neighbour.nid.ref s.toLevelStore s'.toLevelStore ∧
      Around w s'.toLevelStore V x (insert neighbour.nid.ref X) ∧
      out = (if hasRoom c (s.slots neighbour.nid.ref) then [] else [neighbour]) ∧
      (∀ n ∈ s.links neighbour.nid.ref, n ∈ s'.links neighbour.nid.ref) ∧
      SameBut x s.toLevelStore s'.toLevelStore ∧
      (hasRoom c (s.slots neighbour.nid.ref) = true → ∃ n ∈ s'.links neighbour.nid.ref, n.nid.ref = x) := by
  set b := neighbour.nid.ref
  have hsound := ha.sound b hb
  obtain ⟨e, he⟩ := hsound.live.exists_entry
  rw [landLink, Prog.bind_returns] at h
  obtain ⟨y, s₁, hy, h⟩ := h
  rw [attempt_fetch_returns hq] at hy
  obtain ⟨rfl, rfl⟩ := hy
  simp only [show s.entry neighbour.nid.ref = some e from he, Option.elim_some] at h
  have hxb : x ∉ s.names b := ha.not_named hb hX
  have hne : b ≠ x := ha.ne hb
  have hroom := freeSlot_isSome (c := c) e
  rw [← slots_of_entry he] at hroom
  rw [landIn] at h
  rcases hf : freeSlot c e with _ | i
  · simp only [hf] at h
    rw [Prog.bind_returns] at h
    obtain ⟨_, s₂, h1, h2⟩ := h
    simp only [Prog.pure_apply, Prod.mk.injEq, Except.ok.injEq] at h2
    obtain ⟨rfl, rfl⟩ := h2
    obtain ⟨hq', ht, hsl, hc, -⟩ :=
      addOverflowIncoming_spec hcap hq hs hsound.live (head_of_entry he) h1
    have hl : s₂.links b = s.links b := by rw [links, links, hsl]
    have hn := names_perm_of_chained hl hc
    rw [hx] at hn
    rw [hf, Option.isSome_none] at hroom
    have hother := hc.filter fun n => n.ref ≠ x
    rw [List.filter_cons_of_neg (by simp [hx])] at hother
    refine ⟨hq', ht, ha.add hb ht (hsound.grow ht hne hxb hn ?_ ?_) hn, by simp [b, ← hroom], fun n hn => hl ▸ hn,
      .of_cut ht (by rw [otherLinks, otherLinks, hl]) hother, fun hyes => absurd (hroom.trans hyes) (by simp)⟩
    · rw [hl]
      exact fun n hn => ⟨hsound.outgoing n hn, hsound.owner n hn⟩
    · intro n hn
      rcases List.mem_cons.mp (hc.mem_iff.mp hn) with rfl | hn
      · rfl
      · exact hsound.flagged n hn
  · simp only [hf] at h
    rw [Prog.bind_returns] at h
    obtain ⟨_, s₂, h1, h2⟩ := h
    simp only [Prog.pure_apply, Prod.mk.injEq, Except.ok.injEq] at h2
    obtain ⟨rfl, rfl⟩ := h2
    obtain ⟨hq', ht, hsl, -, hc, -⟩ := updateSlots_spec hq hs h1
    have hl : (s₂.links b).Perm (node :: s.links b) := by
      rw [links, links, hsl, slots_of_entry he]
      exact reduceOption_set_some (freeSlot_spec hf) node
    have hn := names_perm_of_links hl hc
    rw [hx] at hn
    rw [hf, Option.isSome_some] at hroom
    have hother := hl.filter fun n => n.nid.ref ≠ x
    rw [List.filter_cons_of_neg (by simp [hx])] at hother
    refine ⟨hq', ht, ha.add hb ht (hsound.grow ht hne hxb hn ?_ ?_) hn, by simp [b, ← hroom],
      fun n hn => hl.mem_iff.mpr (List.mem_cons_of_mem _ hn),
      .of_cut ht hother (by rw [otherChained, otherChained, hc]),
      fun _ => ⟨node, hl.mem_iff.mpr (by simp), by rw [hx]⟩⟩
    · intro n hn
      rcases List.mem_cons.mp (hl.mem_iff.mp hn) with rfl | hn
      · rw [hx]
        exact ⟨rfl, hown⟩
      · exact ⟨hsound.outgoing n hn, hsound.owner n hn⟩
    · rw [hc]
      exact hsound.flagged

/-! ### The walk over a node's list -/

/-- What `link_neighbours_locked` writes back to a slot: a flagged link without the flag. -/
def confirm : Option Node → Option (Option Node)
  | some n => if n.nid.incoming then some (some ⟨n.nid.clearIncoming, n.vid⟩) else none
  | none => none

/-- The link without the flag. -/
def unflag (n : Node) : Node := ⟨n.nid.clearIncoming, n.vid⟩

theorem unflag_eq {n : Node} (h : n.nid.incoming = false) : unflag n = n := by
  rcases n with ⟨⟨r, f⟩, v⟩
  obtain rfl : f = false := h
  rfl

theorem confirm_getD (o : Option Node) : (confirm o).getD o = o.map unflag := by
  rcases o with _ | ⟨⟨r, _ | _⟩, v⟩ <;> rfl

/-- The flagged links of a list of slots. -/
def pendingRefs (ws : List (Option Node × ℕ)) : Set ℕ :=
  {b | ∃ p ∈ ws, ∃ n, p.1 = some n ∧ n.nid.incoming = true ∧ n.nid.ref = b}

theorem pendingRefs_append_some {ws : List (Option Node × ℕ)} {n : Node} {i : ℕ}
    (h : n.nid.incoming = true) :
    pendingRefs (ws ++ [(some n, i)]) = insert n.nid.ref (pendingRefs ws) := by
  ext b
  simp only [pendingRefs, List.mem_append, List.mem_singleton, Set.mem_ofPred_eq, Set.mem_insert_iff]
  constructor
  · rintro ⟨p, hp | rfl, m, hm, hmi, rfl⟩
    · exact .inr ⟨p, hp, m, hm, hmi, rfl⟩
    · simp only [Option.some.injEq] at hm
      subst hm
      exact .inl rfl
  · rintro (rfl | ⟨p, hp, m, hm, hmi, rfl⟩)
    · exact ⟨_, .inr rfl, n, rfl, h, rfl⟩
    · exact ⟨p, .inl hp, m, hm, hmi, rfl⟩

theorem pendingRefs_append_of_not {ws : List (Option Node × ℕ)} {o : Option Node} {i : ℕ}
    (h : ∀ n, o = some n → n.nid.incoming = false) : pendingRefs (ws ++ [(o, i)]) = pendingRefs ws := by
  ext b
  simp only [pendingRefs, List.mem_append, List.mem_singleton, Set.mem_ofPred_eq]
  constructor
  · rintro ⟨p, hp | rfl, m, hm, hmi, rfl⟩
    · exact ⟨p, hp, m, hm, hmi, rfl⟩
    · rw [h m hm] at hmi
      exact absurd hmi (by simp)
  · rintro ⟨p, hp, m, hm, hmi, rfl⟩
    exact ⟨p, .inl hp, m, hm, hmi, rfl⟩

/-- What the walk reports of a slot: the target of a flagged link, if its list has no room. -/
def reported (c : LevelCtx) (s : LevelStore) (p : Option Node × ℕ) : Option Node :=
  p.1.bind fun n => if n.nid.incoming && !hasRoom c (s.slots n.nid.ref) then some (unflag n) else none

/-- The walk of `link_neighbours_locked` after the slots `done`. -/
structure LinkWalk (c : LevelCtx) (w : ℕ) (s₀ : LevelState) (V : Set ℕ) (x : ℕ) (X : Set ℕ)
    (rest : List (Option Node × ℕ)) (acc : List Node × List (ℕ × Option Node)) (s : LevelState)
    (done : List (Option Node × ℕ)) : Prop where
  split : (s₀.slots x).zipIdx = done ++ rest
  rewired : Rewired s₀ s
  around : Around w s.toLevelStore V x (X ∪ pendingRefs done)
  slots : s.slots x = s₀.slots x
  chained : s.chained x = s₀.chained x
  writes : acc.2 = done.filterMap fun p => (confirm p.1).map fun v => (p.2, v)
  reports : acc.1 = done.filterMap (reported c s₀.toLevelStore)
  grown : ∀ b, b ≠ x → ∀ n ∈ s₀.links b, n ∈ s.links b
  ahead : ∀ b, b ≠ x → b ∉ pendingRefs done → s.slots b = s₀.slots b
  same : SameBut x s₀.toLevelStore s.toLevelStore
  landed : ∀ n i, (some n, i) ∈ done → n.nid.incoming = true → hasRoom c (s₀.slots n.nid.ref) = true →
    ∃ m ∈ s.links n.nid.ref, m.nid.ref = x

/-- A flagged link is not landed yet, nor is its target one of those that name `x`. -/
theorem not_mem_of_pending {s₀ : LevelStore} (hp : Pending w s₀ V x X)
    {done rest : List (Option Node × ℕ)} {n : Node} {i : ℕ}
    (hsplit : (s₀.slots x).zipIdx = done ++ (some n, i) :: rest) (hn : n.nid.incoming = true) :
    n.nid.ref ∉ X ∪ pendingRefs done := by
  have hslots : s₀.slots x = done.map Prod.fst ++ some n :: rest.map Prod.fst := by
    have := congrArg (List.map Prod.fst) hsplit
    simpa [List.zipIdx_map_fst] using this
  have hlinks : s₀.links x = (done.map Prod.fst).reduceOption ++ n :: (rest.map Prod.fst).reduceOption := by
    rw [links, hslots, List.reduceOption_append, List.reduceOption_cons_of_some]
  have hnd := hp.nodup
  rw [names, List.nodup_append] at hnd
  obtain ⟨hl, -, hdis⟩ := hnd
  have hinj : ∀ m ∈ s₀.links x, m.nid.ref = n.nid.ref → m = n := fun m hm he =>
    List.inj_on_of_nodup_map hl hm (by simp [hlinks]) he
  rintro (hX | ⟨p, hpd, m, hm, hmi, he⟩)
  · rcases (hp.names _).mp hX with ⟨m, hm, hmi, he⟩ | ⟨m, hm, he⟩
    · rw [hinj m hm he, hn] at hmi
      exact absurd hmi (by simp)
    · exact hdis n.nid.ref (List.mem_map_of_mem (by simp [hlinks])) m.ref (List.mem_map_of_mem hm) he.symm
  · rw [hlinks, List.map_append, List.nodup_append] at hl
    refine hl.2.2 m.nid.ref (List.mem_map_of_mem ?_) n.nid.ref (by simp) he
    exact List.reduceOption_mem_iff.mpr (hm ▸ List.mem_map_of_mem hpd)

/-- One turn of the walk. -/
theorem LinkWalk.step (hcap : 0 < c.overflowCapacity) {s₀ : LevelState}
    (hp : Pending w s₀.toLevelStore V x X) (hx : node.nid = ⟨x, false⟩)
    (hown : s₀.ownerOf x = some node.vid) {p : Option Node × ℕ} {rest done : List (Option Node × ℕ)}
    {acc acc' : List Node × List (ℕ × Option Node)} (h : LinkWalk c w s₀ V x X (p :: rest) acc s done)
    (hrun : linkSlot c node acc p s = (.ok acc', s')) :
    LinkWalk c w s₀ V x X rest acc' s' (done ++ [p]) := by
  have hsplit : (s₀.slots x).zipIdx = (done ++ [p]) ++ rest := by simp [h.split]
  -- a slot that is not flagged is passed over
  have hskip (hno : ∀ n, p.1 = some n → n.nid.incoming = false) :
      LinkWalk c w s₀ V x X rest acc s (done ++ [p]) := by
    have hc : confirm p.1 = none := by
      rcases hp1 : p.1 with _ | n
      · rfl
      · simp [confirm, hno n hp1]
    have hrep : reported c s₀.toLevelStore p = none := by
      rcases hp1 : p.1 with _ | n
      · simp [reported, hp1]
      · simp [reported, hp1, hno n hp1]
    have hpend : pendingRefs (done ++ [(p.1, p.2)]) = pendingRefs done := pendingRefs_append_of_not hno
    refine ⟨hsplit, h.rewired, hpend ▸ h.around, h.slots, h.chained, ?_, ?_, h.grown, hpend ▸ h.ahead, h.same,
      fun n i hmem hi hroom => ?_⟩
    · simp [List.filterMap_append, hc, h.writes]
    · simp [List.filterMap_append, hrep, h.reports]
    · rcases List.mem_append.mp hmem with hmem | hmem
      · exact h.landed n i hmem hi hroom
      · rw [hno n (congrArg Prod.fst (List.mem_singleton.mp hmem)).symm] at hi
        exact absurd hi (by simp)
  rcases p with ⟨_ | n, i⟩
  · simp only [linkSlot, Prog.pure_apply, Prod.mk.injEq, Except.ok.injEq] at hrun
    obtain ⟨rfl, rfl⟩ := hrun
    exact hskip (by simp)
  · rcases hn : n.nid.incoming with _ | _
    · simp only [linkSlot, hn, Bool.false_eq_true, if_false, Prog.pure_apply, Prod.mk.injEq,
        Except.ok.injEq] at hrun
      obtain ⟨rfl, rfl⟩ := hrun
      exact hskip (by simpa using hn)
    · simp only [linkSlot, hn, if_true] at hrun
      rw [Prog.bind_returns] at hrun
      obtain ⟨out, s₁, h1, h2⟩ := hrun
      simp only [Prog.pure_apply, Prod.mk.injEq, Except.ok.injEq] at h2
      obtain ⟨rfl, rfl⟩ := h2
      have hmem : n ∈ s₀.links x := List.reduceOption_mem_iff.mpr <| by
        have : (some n, i) ∈ (s₀.slots x).zipIdx := by simp [h.split]
        exact List.fst_mem_of_mem_zipIdx this
      have hV : n.nid.ref ∈ V := hp.pending n hmem hn
      have hX : n.nid.ref ∉ X ∪ pendingRefs done := not_mem_of_pending hp h.split hn
      obtain ⟨hq', ht, hA, hout, hgrow, hbut, hland⟩ := landLink_spec hcap h.rewired.quiet h.rewired.chains h.around
        (show (unflag n).nid.ref ∈ V from hV) hX hx ((h.rewired.ownerOf x).trans hown) h1
      have hne : x ≠ n.nid.ref := fun he => h.around.out (he ▸ hV)
      have hsame : s.slots (unflag n).nid.ref = s₀.slots n.nid.ref := h.ahead _ (Ne.symm hne) fun h' => hX (.inr h')
      have hgrown : ∀ b, b ≠ x → ∀ m ∈ s.links b, m ∈ s₁.links b := fun b hb m hm => by
        by_cases hbn : b = n.nid.ref
        · subst hbn
          exact hgrow m hm
        · rwa [ht.links hbn]
      refine ⟨hsplit, h.rewired.trans (.of_touch hq' ht), ?_, ?_, ?_, ?_, ?_,
        fun b hb m hm => hgrown b hb m (h.grown b hb m hm), fun b hb hnot => ?_, h.same.trans hbut,
        fun m j hmem hi hroom => ?_⟩
      · rw [pendingRefs_append_some hn, Set.union_insert]
        exact hA
      · exact (ht.slots x hne).trans h.slots
      · exact (ht.chained ((h.rewired.live_iff x).mpr hp.live) hne).trans h.chained
      · simp [List.filterMap_append, confirm, hn, h.writes]
      · rw [List.filterMap_append, ← h.reports, hout, hsame]
        simp only [reported, Option.bind_some, hn, Bool.true_and, List.filterMap_cons, List.filterMap_nil]
        rcases hasRoom c (s₀.slots n.nid.ref) with _ | _ <;> rfl
      · rw [pendingRefs_append_some hn, Set.mem_insert_iff, not_or] at hnot
        exact (ht.slots b hnot.1).trans (h.ahead b hb hnot.2)
      · rcases List.mem_append.mp hmem with hmem | hmem
        · obtain ⟨k, hk, hkx⟩ := h.landed m j hmem hi hroom
          have hmV : m.nid.ref ∈ V := hp.pending m (List.reduceOption_mem_iff.mpr (List.fst_mem_of_mem_zipIdx
            (h.split ▸ List.mem_append_left _ hmem))) hi
          exact ⟨k, hgrown _ (fun he => h.around.out (he ▸ hmV)) k hk, hkx⟩
        · obtain rfl : m = n := Option.some.inj (congrArg Prod.fst (List.mem_singleton.mp hmem))
          exact hland (hsame ▸ hroom)

/-- What `link_neighbours_locked` does: the node's links are confirmed, the others at most gain
one, and those it reports are the targets of flagged links without room. -/
structure Links (c : LevelCtx) (x : ℕ) (s s' : LevelState) (out : List Node) : Prop where
  rewired : Rewired s s'
  links : s'.links x = (s.links x).map unflag
  chained : s'.chained x = s.chained x
  grown : ∀ b, b ≠ x → ∀ n ∈ s.links b, n ∈ s'.links b
  reports : out = (s.slots x).zipIdx.filterMap (reported c s.toLevelStore)
  same : SameBut x s.toLevelStore s'.toLevelStore
  landed : ∀ n ∈ s.links x, n.nid.incoming = true → hasRoom c (s.slots n.nid.ref) = true →
    ∃ m ∈ s'.links n.nid.ref, m.nid.ref = x

theorem linkNeighboursLocked_links (hcap : 0 < c.overflowCapacity) (hq : s.Quiet) (hs : s.Chains)
    (ha : Around w s.toLevelStore V x X) (hp : Pending w s.toLevelStore V x X)
    (hx : node.nid = ⟨x, false⟩) (hown : s.ownerOf x = some node.vid)
    (h : linkNeighboursLocked c node s = (.ok out, s')) :
    Links c x s s' out ∧ Mutual w s'.toLevelStore (insert x V) := by
  rw [linkNeighboursLocked, Prog.bind_returns] at h
  obtain ⟨e, s₁, he, h⟩ := h
  rw [fetch_returns hq] at he
  obtain ⟨he, rfl⟩ := he
  rw [hx] at he
  rw [← slots_of_entry he, Prog.bind_returns] at h
  obtain ⟨⟨out', ws⟩, s₂, hfold, h⟩ := h
  rw [Prog.bind_returns] at h
  obtain ⟨_, s₃, hupd, h⟩ := h
  simp only [Prog.pure_apply, Prod.mk.injEq, Except.ok.injEq] at h
  obtain ⟨rfl, rfl⟩ := h
  -- the walk: afterwards everything the node names names it
  obtain ⟨done, hw⟩ := Prog.foldlM_returns
    (fun rest acc t => ∃ done, LinkWalk c w s V x X rest acc t done)
    (fun p rest acc t acc' t' ⟨done, hI⟩ hrun => ⟨_, hI.step hcap hp hx hown hrun⟩)
    _ _ _ _ _ ⟨[], by simp, .refl hq hs, by simpa [pendingRefs] using ha, rfl, rfl, rfl, rfl, fun _ _ _ hn => hn,
      fun _ _ _ => rfl, .refl _ _, by simp⟩ hfold
  have hdone : done = (s.slots x).zipIdx := by simpa using hw.split.symm
  -- the flags are cleared in one update
  obtain ⟨hq', ht, hsl, -, hc, -⟩ := updateSlots_spec hw.rewired.quiet hw.rewired.chains hupd
  rw [hx] at ht hsl hc
  have hr : Rewired s s₃ := hw.rewired.trans (.of_touch hq' ht)
  have hlinks : s₃.links x = (s.links x).map unflag := by
    have hws : ws = (s.slots x).zipIdx.filterMap fun p => (confirm p.1).map fun v => (p.2, v) := by
      rw [← hdone]
      exact hw.writes
    rw [links, hsl, hw.slots, hws, writeSlots_collect, links, ← List.reduceOption_map]
    congr 1
    exact List.map_congr_left fun o _ => confirm_getD o
  have hchained : s₃.chained x = s.chained x := hc.trans hw.chained
  have hnames : s₃.names x = s.names x := by
    rw [names, names, hlinks, hchained, List.map_map]
    rfl
  have hmemX (b : ℕ) : b ∈ s.names x ↔ b ∈ X ∪ pendingRefs done := by
    rw [mem_names, Set.mem_union, hp.names, hdone]
    constructor
    · rintro (⟨n, hn, rfl⟩ | hn)
      · rcases hi : n.nid.incoming with _ | _
        · exact .inl (.inl ⟨n, hn, hi, rfl⟩)
        · obtain ⟨i, hi', hge⟩ := List.getElem_of_mem (List.reduceOption_mem_iff.mp hn)
          refine .inr ⟨(some n, i), ?_, n, rfl, hi, rfl⟩
          rw [← hge]
          exact List.mk_mem_zipIdx_iff_getElem?.mpr (List.getElem?_eq_getElem hi')
      · exact .inl (.inr hn)
    · rintro ((⟨n, hn, -, rfl⟩ | hn) | ⟨p, hpm, n, hpn, -, rfl⟩)
      · exact .inl ⟨n, hn, rfl⟩
      · exact .inr hn
      · have := List.fst_mem_of_mem_zipIdx hpm
        exact .inl ⟨n, List.reduceOption_mem_iff.mpr (hpn ▸ this), rfl⟩
  have hA : Around w s₃.toLevelStore V x (X ∪ pendingRefs done) := hw.around.touch ht
  have hgrown : ∀ b, b ≠ x → ∀ n ∈ s.links b, n ∈ s₃.links b := fun b hb n hn =>
    ht.links hb ▸ hw.grown b hb n hn
  have hland : ∀ n ∈ s.links x, n.nid.incoming = true → hasRoom c (s.slots n.nid.ref) = true →
      ∃ m ∈ s₃.links n.nid.ref, m.nid.ref = x := fun n hn hi hroom => by
    obtain ⟨i, hlt, hge⟩ := List.getElem_of_mem (List.reduceOption_mem_iff.mp hn)
    have hmem : (some n, i) ∈ done := by
      rw [hdone, List.mk_mem_zipIdx_iff_getElem?, List.getElem?_eq_getElem hlt, hge]
    obtain ⟨m, hm, hmx⟩ := hw.landed n i hmem hi hroom
    have hne : n.nid.ref ≠ x := fun he => ha.out (he ▸ hp.pending n hn hi)
    exact ⟨m, by rwa [ht.links hne], hmx⟩
  refine ⟨⟨hr, hlinks, hchained, hgrown, hdone ▸ hw.reports, hw.same.trans (.of_touch ht), hland⟩,
    hA.close ⟨⟨(hr.live_iff x).mpr hp.live, ?_, ?_, ?_, hchained ▸ hp.flagged, hnames ▸ hp.nodup, ?_⟩,
      fun b => hnames ▸ hmemX b⟩⟩
  · rw [hsl, length_writeSlots, hw.slots]
    exact hp.width
  · intro n hn
    rw [hlinks] at hn
    obtain ⟨m, -, rfl⟩ := List.mem_map.mp hn
    rfl
  · intro n hn
    rw [hlinks] at hn
    obtain ⟨m, hm, rfl⟩ := List.mem_map.mp hn
    exact (hr.ownerOf _).trans (hp.owner m hm)
  · intro hxx
    rw [hnames, hmemX] at hxx
    exact hA.out (hA.named x hxx).1

/-- What is reported are flagged links of the node, without the flag. -/
theorem mem_reported {s : LevelStore} {n : Node} : n ∈ (s.slots x).zipIdx.filterMap (reported c s) ↔
    ∃ m ∈ s.links x, m.nid.incoming = true ∧ hasRoom c (s.slots m.nid.ref) = false ∧ unflag m = n := by
  rw [List.mem_filterMap]
  constructor
  · rintro ⟨⟨o, i⟩, hp, hr⟩
    obtain ⟨m, rfl, hm⟩ := Option.bind_eq_some_iff.mp hr
    rw [Option.ite_none_right_eq_some, Bool.and_eq_true, Bool.not_eq_true', Option.some.injEq] at hm
    exact ⟨m, List.reduceOption_mem_iff.mpr (List.fst_mem_of_mem_zipIdx hp), hm.1.1, hm.1.2, hm.2⟩
  · rintro ⟨m, hm, hi, hroom, rfl⟩
    obtain ⟨i, hlt, hge⟩ := List.getElem_of_mem (List.reduceOption_mem_iff.mp hm)
    refine ⟨(some m, i), List.mk_mem_zipIdx_iff_getElem?.mpr (hge ▸ List.getElem?_eq_getElem hlt), ?_⟩
    simp [reported, hi, hroom]

/-- After `link_neighbours_locked` the node names exactly those that name it. -/
theorem linkNeighboursLocked_spec (hcap : 0 < c.overflowCapacity) (hq : s.Quiet) (hs : s.Chains)
    (ha : Around w s.toLevelStore V x X) (hp : Pending w s.toLevelStore V x X)
    (hx : node.nid = ⟨x, false⟩) (hown : s.ownerOf x = some node.vid)
    (h : linkNeighboursLocked c node s = (.ok out, s')) :
    Rewired s s' ∧ Mutual w s'.toLevelStore (insert x V) ∧ ∀ n ∈ out, Good s'.toLevelStore V n := by
  obtain ⟨hl, hm⟩ := linkNeighboursLocked_links hcap hq hs ha hp hx hown h
  refine ⟨hl.rewired, hm, fun n hn => ?_⟩
  rw [hl.reports] at hn
  obtain ⟨m, hm, hi, -, rfl⟩ := mem_reported.mp hn
  exact ⟨hp.pending m hm hi, rfl, (hl.rewired.ownerOf _).trans (hp.owner m hm)⟩

end IndexGraph
end Hnsw
end VsqlVector
