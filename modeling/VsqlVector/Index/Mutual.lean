/-
# Nodes that name each other

At rest the nodes of a level name each other both ways: if a record names `b`,
the record of `b` names it back, once (`Mutual`). An operation works on one node
`x` at a time and changes its record and those of its neighbours one by one, so
in between the others agree among themselves but only some of them, `X`, name
`x` (`Around`). The record of `x` is described apart from them: `Settled` when it
names exactly `X`, `Pending` when it has flagged links that are still to be
landed.

Key definitions: `Mutual`, `Around`, `Settled`, `Pending`.
Key theorems: `Around.touch`, `Around.add`, `Around.cut`, `Mutual.around`,
`Around.close`, `Around.toMutual`.
-/
import VsqlVector.Index.Chains

namespace VsqlVector
namespace Hnsw

open LevelStore

/-- The owner in the record of a node. -/
def LevelStore.ownerOf (s : LevelStore) (a : ℕ) : Option ℕ := (s.bone a).map Bone.owner

theorem ownerOf_of_entry {s : LevelStore} {a : ℕ} {e : NeighbourEntry} (h : s.entry a = some e) :
    s.ownerOf a = some e.owner := by
  obtain ⟨r, hr, rfl⟩ := Option.map_eq_some_iff.mp h
  simp [LevelStore.ownerOf, bone, hr, Record.bone]

/-- The record of `a`, with a list of `w` slots, is in order but for what it names. -/
structure Sound (w : ℕ) (s : LevelStore) (a : ℕ) : Prop where
  live : s.Live a
  width : (s.slots a).length = w
  outgoing : ∀ n ∈ s.links a, n.nid.incoming = false
  owner : ∀ n ∈ s.links a, s.ownerOf n.nid.ref = some n.vid
  flagged : ∀ n ∈ s.chained a, n.incoming = true
  nodup : (s.names a).Nodup
  irrefl : a ∉ s.names a

/-- The nodes of `V` name each other both ways, and nothing else. -/
structure Mutual (w : ℕ) (s : LevelStore) (V : Set ℕ) : Prop where
  sound : ∀ a ∈ V, Sound w s a
  symm : ∀ a ∈ V, ∀ b ∈ s.names a, b ∈ V ∧ a ∈ s.names b

/-- The nodes of `V` name each other both ways, and those of `X` name `x` besides. -/
structure Around (w : ℕ) (s : LevelStore) (V : Set ℕ) (x : ℕ) (X : Set ℕ) : Prop where
  out : x ∉ V
  sound : ∀ a ∈ V, Sound w s a
  symm : ∀ a ∈ V, ∀ b ∈ s.names a, (b ∈ V ∧ a ∈ s.names b) ∨ (b = x ∧ a ∈ X)
  named : ∀ a ∈ X, a ∈ V ∧ x ∈ s.names a

/-- The record of `x` names exactly `X`. -/
structure Settled (w : ℕ) (s : LevelStore) (x : ℕ) (X : Set ℕ) : Prop where
  sound : Sound w s x
  names : ∀ b, b ∈ s.names x ↔ b ∈ X

/-- The record of `x` names `X` and, in flagged slots, nodes of `V` besides. -/
structure Pending (w : ℕ) (s : LevelStore) (V : Set ℕ) (x : ℕ) (X : Set ℕ) : Prop where
  live : s.Live x
  width : (s.slots x).length = w
  owner : ∀ n ∈ s.links x, s.ownerOf n.nid.ref = some n.vid
  flagged : ∀ n ∈ s.chained x, n.incoming = true
  nodup : (s.names x).Nodup
  names : ∀ b, b ∈ X ↔ (∃ n ∈ s.links x, n.nid.incoming = false ∧ n.nid.ref = b) ∨
    ∃ n ∈ s.chained x, n.ref = b
  pending : ∀ n ∈ s.links x, n.nid.incoming = true → n.nid.ref ∈ V

variable {w x b : ℕ} {s s' : LevelStore} {V X : Set ℕ}

namespace LevelStore

theorem mem_names {a b : ℕ} :
    b ∈ s.names a ↔ (∃ n ∈ s.links a, n.nid.ref = b) ∨ ∃ n ∈ s.chained a, n.ref = b := by
  simp [names, List.mem_append, List.mem_map]

theorem mem_names_of_link {a : ℕ} {n : Node} (h : n ∈ s.links a) : n.nid.ref ∈ s.names a :=
  mem_names.mpr (.inl ⟨n, h, rfl⟩)

theorem mem_names_of_chained {a : ℕ} {n : NID} (h : n ∈ s.chained a) : n.ref ∈ s.names a :=
  mem_names.mpr (.inr ⟨n, h, rfl⟩)

end LevelStore

theorem Touch.ownerOf (h : Touch x s s') (a : ℕ) : s'.ownerOf a = s.ownerOf a := by
  rw [LevelStore.ownerOf, LevelStore.ownerOf, h.bone]

/-- A record that is not touched stays in order. -/
theorem Sound.touch (h : Sound w s b) (ht : Touch x s s') (hb : b ≠ x) : Sound w s' b := by
  have hl := ht.links hb
  have hc := ht.chained h.live hb
  have hn := ht.names h.live hb
  exact ⟨ht.live_iff.mpr h.live, (ht.length_slots b).trans h.width, hl ▸ h.outgoing,
    fun n hn => (ht.ownerOf _).trans (h.owner n (hl ▸ hn)), hc ▸ h.flagged, hn ▸ h.nodup, hn ▸ h.irrefl⟩

namespace Around

theorem ne (h : Around w s V x X) (hb : b ∈ V) : b ≠ x := fun he => h.out (he ▸ hb)

/-- The record of `x` is no concern of the others. -/
theorem touch (h : Around w s V x X) (ht : Touch x s s') : Around w s' V x X where
  out := h.out
  sound a ha := (h.sound a ha).touch ht (h.ne ha)
  symm a ha b hb := by
    rw [ht.names (h.sound a ha).live (h.ne ha)] at hb
    refine (h.symm a ha b hb).imp (fun h' => ⟨h'.1, ?_⟩) id
    rw [ht.names (h.sound b h'.1).live (h.ne h'.1)]
    exact h'.2
  named a ha := by
    obtain ⟨h1, h2⟩ := h.named a ha
    rw [ht.names (h.sound a h1).live (h.ne h1)]
    exact ⟨h1, h2⟩

/-- The others still name each other both ways once the record of one of them,
`b`, has changed in what it says of `x` only. -/
theorem symm_of_touch (h : Around w s V x X) (hb : b ∈ V) (ht : Touch b s s')
    (hnames : ∀ a, a ≠ x → (a ∈ s'.names b ↔ a ∈ s.names b)) {a d : ℕ} (ha : a ∈ V) (hd : d ≠ x)
    (hmem : d ∈ s'.names a) : d ∈ V ∧ a ∈ s'.names d := by
  have hold : d ∈ s.names a := by
    by_cases hab : a = b
    · subst hab
      exact (hnames d hd).mp hmem
    · rwa [ht.names (h.sound a ha).live hab] at hmem
  obtain ⟨hdV, hback⟩ := (h.symm a ha d hold).resolve_right fun h' => hd h'.1
  refine ⟨hdV, ?_⟩
  by_cases hdb : d = b
  · subst hdb
    exact (hnames a (h.ne ha)).mpr hback
  · rwa [ht.names (h.sound d hdV).live hdb]

/-- A node of the others comes to name `x`. -/
theorem add (h : Around w s V x X) (hb : b ∈ V) (ht : Touch b s s') (hsound : Sound w s' b)
    (hnames : (s'.names b).Perm (x :: s.names b)) : Around w s' V x (insert b X) := by
  have hmem (a : ℕ) (ha : a ≠ x) : a ∈ s'.names b ↔ a ∈ s.names b := by
    rw [hnames.mem_iff, List.mem_cons, or_iff_right ha]
  refine ⟨h.out, fun a ha => ?_, fun a ha d hd => ?_, fun a ha => ?_⟩
  · by_cases hab : a = b
    · exact hab ▸ hsound
    · exact (h.sound a ha).touch ht hab
  · by_cases hdx : d = x
    · refine .inr ⟨hdx, ?_⟩
      by_cases hab : a = b
      · exact .inl hab
      · rw [ht.names (h.sound a ha).live hab] at hd
        rcases h.symm a ha d hd with h' | h'
        · exact absurd (hdx ▸ h'.1) h.out
        · exact .inr h'.2
    · exact .inl (h.symm_of_touch hb ht hmem ha hdx hd)
  · by_cases hab : a = b
    · subst hab
      exact ⟨hb, hnames.mem_iff.mpr (by simp)⟩
    · rcases ha with ha | ha
      · exact absurd ha hab
      · obtain ⟨h1, h2⟩ := h.named a ha
        exact ⟨h1, by rwa [ht.names (h.sound a h1).live hab]⟩

/-- A node of the others no longer names `x`. -/
theorem cut (h : Around w s V x X) (hb : b ∈ V) (ht : Touch b s s') (hsound : Sound w s' b)
    (hnames : (s.names b).Perm (x :: s'.names b)) : Around w s' V x (X \ {b}) := by
  have hmem (a : ℕ) (ha : a ≠ x) : a ∈ s'.names b ↔ a ∈ s.names b := by
    rw [hnames.mem_iff, List.mem_cons, or_iff_right ha]
  have hxb : x ∉ s'.names b := by
    have := hnames.nodup_iff.mp (h.sound b hb).nodup
    exact (List.nodup_cons.mp this).1
  refine ⟨h.out, fun a ha => ?_, fun a ha d hd => ?_, fun a ha => ?_⟩
  · by_cases hab : a = b
    · exact hab ▸ hsound
    · exact (h.sound a ha).touch ht hab
  · by_cases hdx : d = x
    · refine .inr ⟨hdx, ?_⟩
      by_cases hab : a = b
      · subst hab hdx
        exact absurd hd hxb
      · rw [ht.names (h.sound a ha).live hab] at hd
        rcases h.symm a ha d hd with h' | h'
        · exact absurd (hdx ▸ h'.1) h.out
        · exact ⟨h'.2, hab⟩
    · exact .inl (h.symm_of_touch hb ht hmem ha hdx hd)
  · obtain ⟨h1, h2⟩ := h.named a ha.1
    exact ⟨h1, by rwa [ht.names (h.sound a h1).live ha.2]⟩

/-- If nothing names `x`, the others are at rest. -/
theorem toMutual (h : Around w s V x ∅) : Mutual w s V :=
  ⟨h.sound, fun a ha b hb => (h.symm a ha b hb).resolve_right fun h' => h'.2⟩

/-- If `x` names exactly those that name it, all are at rest. -/
theorem close (h : Around w s V x X) (hx : Settled w s x X) : Mutual w s (insert x V) := by
  refine ⟨fun a ha => ?_, fun a ha b hb => ?_⟩
  · rcases ha with rfl | ha
    · exact hx.sound
    · exact h.sound a ha
  · rcases ha with rfl | ha
    · obtain ⟨h1, h2⟩ := h.named b ((hx.names b).mp hb)
      exact ⟨.inr h1, h2⟩
    · rcases h.symm a ha b hb with h' | ⟨rfl, h'⟩
      · exact ⟨.inr h'.1, h'.2⟩
      · exact ⟨.inl rfl, (hx.names a).mpr h'⟩

end Around

namespace Mutual

/-- The nodes other than `x`, seen from `x`. -/
theorem around (h : Mutual w s V) (hx : x ∈ V) :
    Around w s (V \ {x}) x {a | a ∈ s.names x} ∧ Settled w s x {a | a ∈ s.names x} := by
  refine ⟨⟨fun h' => h'.2 rfl, fun a ha => h.sound a ha.1, fun a ha b hb => ?_, fun a ha => ?_⟩,
    h.sound x hx, fun _ => Iff.rfl⟩
  · obtain ⟨h1, h2⟩ := h.symm a ha.1 b hb
    by_cases hbx : b = x
    · exact .inr ⟨hbx, hbx ▸ h2⟩
    · exact .inl ⟨⟨h1, hbx⟩, h2⟩
  · obtain ⟨h1, h2⟩ := h.symm x hx a ha
    exact ⟨⟨h1, fun he => (h.sound x hx).irrefl (he ▸ ha)⟩, h2⟩

/-- A node that is not of them and that nothing names. -/
theorem around_fresh (h : Mutual w s V) (hx : x ∉ V) : Around w s V x ∅ :=
  ⟨hx, h.sound, fun a ha b hb => .inl (h.symm a ha b hb), fun _ h' => h'.elim⟩

end Mutual

end Hnsw
end VsqlVector
