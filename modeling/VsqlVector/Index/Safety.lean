/-
# What holds after every history

After an orderly history the links of every level are as they should be
(`orderly_wellLinked`). The entry point needs more: `remove` recognises it only
if it is the vector's top record, but the survivor it installs in its place may
be a lower record of a taller tower. As long as no vector is removed while one
of its lower records is the entry point, the entry point names a record
(`entry_live`) and the towers are complete (`towered`); as long as a removed
entry point has a link at some level, it is unset only in an empty index
(`entry_unset_iff`). Small histories show what happens otherwise.

Key definitions: `WellLinked`, `AtTop`, `Connected`, `Towered`.
Key theorems: `orderly_wellLinked`, `entry_live`, `entry_unset_iff`, `towered`.
-/
import VsqlVector.Index.Histories

namespace VsqlVector
namespace Hnsw

open LevelStore IndexGraph GraphOperations

variable {Data Dist : Type} {ix : Index Data Dist} {M efc : ℕ} {S S' : System} {g' : GraphState} {h : Handle}

/-! ### Links -/

/-- The links of a level: an outgoing link names another record with its owner,
records name each other both ways and once, a node's list has outgoing links
and its chain incoming ones. -/
structure WellLinked (s : LevelStore) : Prop where
  outgoing : ∀ a, s.Live a → ∀ n ∈ s.links a, n.nid.incoming = false →
    s.Live n.nid.ref ∧ s.ownerOf n.nid.ref = some n.vid ∧ n.nid.ref ≠ a
  symm : ∀ a b, b ∈ s.names a ↔ a ∈ s.names b
  nodup : ∀ a, (s.names a).Nodup
  flags : ∀ a, (∀ n ∈ s.links a, n.nid.incoming = false) ∧ ∀ n ∈ s.chained a, n.incoming = true

/-- A node without a record names nothing. -/
theorem not_live_links {s : LevelStore} {a : ℕ} (ha : ¬ s.Live a) : s.links a = [] ∧ s.chained a = [] := by
  have hl : s.nodes.lookup a = none := by simpa [LevelStore.Live] using ha
  have hh : s.head a = none := by simp [head, entry, hl]
  refine ⟨by simp [links, slots, entry, hl], ?_⟩
  have hc : s.chain a = [] := by
    rw [chain, hh]
    cases s.overflows.keys.length <;> rfl
  rw [chained, hc]
  rfl

/-- All the records of a level at rest are well linked. -/
theorem Mutual.wellLinked {w : ℕ} {s : LevelStore} (h : Mutual w s {a | s.Live a}) : WellLinked s := by
  have hback : ∀ a b, b ∈ s.names a → a ∈ s.names b := fun a b hb => by
    by_cases ha : s.Live a
    · exact (h.symm a ha b hb).2
    · rw [names, (not_live_links ha).1, (not_live_links ha).2] at hb
      exact absurd hb (by simp)
  refine ⟨fun a ha n hn _ => ?_, fun a b => ⟨hback a b, hback b a⟩, fun a => ?_, fun a => ?_⟩
  · have hmem := mem_names_of_link hn
    refine ⟨(h.symm a ha _ hmem).1, (h.sound a ha).owner n hn, fun he => ?_⟩
    rw [he] at hmem
    exact (h.sound a ha).irrefl hmem
  · by_cases ha : s.Live a
    · exact (h.sound a ha).nodup
    · rw [names, (not_live_links ha).1, (not_live_links ha).2]
      exact List.nodup_nil
  · by_cases ha : s.Live a
    · exact ⟨(h.sound a ha).outgoing, (h.sound a ha).flagged⟩
    · rw [(not_live_links ha).1, (not_live_links ha).2]
      simp

/-- After every orderly history every level is well linked. -/
theorem orderly_wellLinked (hM : 2 ≤ M) (h : Reaches System.Fresh (System.Step ix M efc Orderly) S) (l : ℕ) :
    WellLinked (S.graph.level l) :=
  ((reaches_upright (by omega) (fun _ _ _ h => h) h).names l).wellLinked

/-! ### Small histories -/

/-- Vectors that are points of the plane, numbered, with the square of their distance. -/
def pointIndex (points : List (ℤ × ℤ)) : Index ℕ ℤ where
  getKeyRef v := some v
  getKeyData v := some v
  helper a b :=
    let p := points.getD a (0, 0)
    let q := points.getD b (0, 0)
    (p.1 - q.1) * (p.1 - q.1) + (p.2 - q.2) * (p.2 - q.2)
  lt a b := decide (a < b)
  lt_irrefl d := by simp
  minQueue := PriorityQueue.ofList _
  maxQueue := PriorityQueue.ofList _

/-- The calls one after the other, each with its storage. -/
def System.play (ix : Index Data Dist) (M efc : ℕ) (S : System) (calls : List (Call Data × Supply)) :
    Option System :=
  calls.foldlM (fun S c => S.call ix M efc c.2 c.1) S

/-- What is played is a history. -/
theorem System.reaches_play {allow : System → Call Data → Supply → Prop} :
    ∀ {calls : List (Call Data × Supply)} {S S' : System}, (∀ c ∈ calls, ∀ S, allow S c.1 c.2) →
    Reaches System.Fresh (System.Step ix M efc allow) S → S.play ix M efc calls = some S' →
    Reaches System.Fresh (System.Step ix M efc allow) S'
  | [], S, S', _, hS, h => by
    simp only [System.play, List.foldlM_nil, Option.pure_def, Option.some.injEq] at h
    exact h ▸ hS
  | c :: calls, S, S', hall, hS, h => by
    simp only [System.play, List.foldlM_cons, Option.bind_eq_bind, Option.bind_eq_some_iff] at h
    obtain ⟨S₁, h1, h2⟩ := h
    exact System.reaches_play (fun c hc => hall c (List.mem_cons_of_mem _ hc))
      (.step hS ⟨c.1, c.2, hall c (by simp) S, h1⟩) h2

/-- A new vector at a point, with the references its records take. -/
def addAt (v level : ℕ) (refs : List ℕ) : Call ℕ × Supply := (.insert 1 v level, ⟨[], refs⟩)

/-- The vector `v` is removed by the transaction that inserted it. -/
def takeOut (v level ref : ℕ) : Call ℕ × Supply := (.remove 1 ⟨⟨⟨ref, false⟩, v⟩, level, 1⟩, ⟨[], []⟩)

/-- Two vectors; the second is then removed by another transaction. -/
def otherRemover : List (Call ℕ × Supply) :=
  [addAt 0 0 [10], addAt 1 0 [20], (.remove 2 ⟨⟨⟨20, false⟩, 1⟩, 0, 1⟩, ⟨[], []⟩)]

/-- Two vectors; when the second is linked to the first, its record cannot be read. -/
def unreadNeighbour : List (Call ℕ × Supply) :=
  [addAt 0 0 [10],
    (.insert 1 1 0, ⟨[.done, .done, .done, .done, .done, .refused ⟨"read failed", false⟩], [20]⟩)]

/-- A remove by another transaction keeps the record of a vector that nothing
names any more, and a record that cannot be read is not linked back. -/
theorem links_not_mutual :
    (∃ S, Reaches System.Fresh (System.Step (pointIndex [(0, 0), (1, 0)]) 2 2
        fun _ _ supply => supply.outcomes = []) S ∧ ¬ WellLinked (S.graph.level 0)) ∧
      ∃ S, Reaches System.Fresh (System.Step (pointIndex [(0, 0), (1, 0)]) 2 2
        fun _ c _ => ∀ trx h, c = .remove trx h → trx = h.stamp) S ∧ ¬ WellLinked (S.graph.level 0) := by
  refine ⟨?_, ?_⟩
  · have hplay : (System.play (pointIndex [(0, 0), (1, 0)]) 2 2 ⟨GraphState.create, []⟩ otherRemover).any
        (fun S => decide (10 ∈ (S.graph.level 0).names 20) && decide (20 ∉ (S.graph.level 0).names 10)) =
        true := by decide +kernel
    obtain ⟨S, hS, hp⟩ := Option.any_eq_true _ _ |>.mp hplay
    refine ⟨S, System.reaches_play (by simp [otherRemover, addAt]) (.init rfl) hS, fun hw => ?_⟩
    simp only [Bool.and_eq_true, decide_eq_true_eq] at hp
    exact hp.2 ((hw.symm 20 10).mp hp.1)
  · have hplay : (System.play (pointIndex [(0, 0), (1, 0)]) 2 2 ⟨GraphState.create, []⟩ unreadNeighbour).any
        (fun S => decide (10 ∈ (S.graph.level 0).names 20) && decide (20 ∉ (S.graph.level 0).names 10)) =
        true := by decide +kernel
    obtain ⟨S, hS, hp⟩ := Option.any_eq_true _ _ |>.mp hplay
    refine ⟨S, System.reaches_play (by simp [unreadNeighbour, addAt]) (.init rfl) hS, fun hw => ?_⟩
    simp only [Bool.and_eq_true, decide_eq_true_eq] at hp
    exact hp.2 ((hw.symm 20 10).mp hp.1)

/-- Two vectors, the second marked and then removed by the transaction that marked it. -/
def markedRun : List (Call ℕ × Supply) :=
  [addAt 0 0 [10], addAt 1 0 [20], (.markDelete 2 ⟨⟨⟨20, false⟩, 1⟩, 0, 1⟩ true, ⟨[], []⟩),
    (.remove 2 ⟨⟨⟨20, false⟩, 1⟩, 0, 2⟩, ⟨[], []⟩)]

theorem wellLinked_markedRun : ∃ S, Reaches System.Fresh
    (System.Step (pointIndex [(0, 0), (1, 0)]) 2 2 Orderly) S ∧ WellLinked (S.graph.level 0) := by
  have hplay : (System.play (pointIndex [(0, 0), (1, 0)]) 2 2 ⟨GraphState.create, []⟩ markedRun).isSome =
      true := by decide +kernel
  obtain ⟨S, hS⟩ := Option.isSome_iff_exists.mp hplay
  have hr : Reaches System.Fresh (System.Step (pointIndex [(0, 0), (1, 0)]) 2 2 Orderly) S :=
    System.reaches_play (by
      simp only [markedRun, addAt, List.mem_cons, List.not_mem_nil, or_false, forall_eq_or_imp, forall_eq]
      simp [Orderly]) (.init rfl) hS
  exact ⟨S, hr, orderly_wellLinked (le_refl _) hr 0⟩

/-! ### The entry point -/

/-- No vector is removed while one of its records below the top is the entry point. -/
def AtTop (S : System) (c : Call Data) : Prop :=
  ∀ trx h, c = .remove trx h → ∀ n, S.graph.entryPoint = some n → S.graph.entryLevel ≤ h.level →
    h.refAt S.graph S.graph.entryLevel = n.nid.ref → S.graph.entryLevel = h.level

/-- An orderly call that finds the entry point where `remove` looks for it. -/
def Recognised (S : System) (c : Call Data) (supply : Supply) : Prop := Orderly S c supply ∧ AtTop S c

/-- The entry point names a record of its level. -/
def EntryLive (g : GraphState) : Prop := ∀ n, g.entryPoint = some n → n.nid.ref ∈ g.live g.entryLevel

/-- A remove that finds the entry point leaves it with a record. -/
theorem EntryLive.remove (hM : 0 < M) (hu : Upright M S) (he : EntryLive S.graph) (hq : S.graph.Quiet)
    (hh : h ∈ S.handles)
    (htop : ∀ n, S.graph.entryPoint = some n → S.graph.entryLevel ≤ h.level →
      h.refAt S.graph S.graph.entryLevel = n.nid.ref → S.graph.entryLevel = h.level)
    (hrun : remove ⟨ix, M, efc, h.stamp⟩ h.node h.level S.graph = (.ok (), g')) : EntryLive g' := by
  obtain ⟨-, hsh, hyes, hno⟩ := hu.remove hM hq hh hrun
  intro n hn
  by_cases hent : IsEntry S.graph h.node h.level
  · exact ((hyes hent).survivor n hn).mem
  · obtain ⟨h1, h2⟩ := hno hent
    rw [h1] at hn
    rw [h2]
    refine (hsh.live _ _).mpr ⟨he n hn, fun hle hX => hent ?_⟩
    -- otherwise the entry point is a record of this vector, so its top record
    have hL := htop n hn hle hX.symm
    refine ⟨n, hn, ?_, hL⟩
    rw [hL, show h.refAt S.graph h.level = _ from tower_top _ _ _] at hX
    have hs := (hu.standing h hh).1
    have hi := (hu.entry n hn).1
    rcases hn' : n.nid with ⟨r, f⟩
    rcases hh' : h.node.nid with ⟨r', f'⟩
    simp only [Node.key, hn', hh'] at hX hs hi ⊢
    rw [hX, hs, hi]

/-- So does every other call. -/
theorem EntryLive.step (hM : 0 < M) (hu : Upright M S) (he : EntryLive S.graph)
    (hst : S.Step ix M efc Recognised S') : EntryLive S'.graph := by
  obtain ⟨c, supply, ⟨⟨hq, htrx⟩, htop⟩, hc⟩ := hst
  have hu' := hu.graph_supply supply
  rcases System.call_cases hc with ⟨trx, data, level, node, rfl, hrun, hh⟩ |
    ⟨trx, h, mark, rfl, hmem, hrun, hh⟩ | ⟨trx, h, rfl, hmem, hrun, hh⟩
  · obtain ⟨hu₁, hsub, ⟨h1, h2⟩ | ⟨hsame, -⟩⟩ := hu'.insert hM hq hrun
    · intro n hn
      obtain rfl := Option.some.inj (h1.symm.trans hn)
      have := (hu₁.standing _ List.mem_cons_self).mem_live (le_refl _)
      rw [h2]
      rwa [show Handle.refAt ⟨node, level, trx⟩ S'.graph level = node.nid.ref from tower_top _ _ _] at this
    · intro n hn
      rw [hsame.1] at hn
      rw [hsame.2]
      exact hsub _ (he n hn)
  · obtain ⟨-, hsame, hlive⟩ := hu'.markDelete hq hmem hrun
    intro n hn
    rw [hsame.1] at hn
    rw [hsame.2, hlive]
    exact he n hn
  · obtain rfl := htrx trx h rfl
    exact EntryLive.remove (S := ⟨{ S.graph with toSupply := supply }, S.handles⟩) hM hu' he hq hmem
      (fun n hn => htop _ h rfl n hn) hrun

theorem reaches_entryLive (hM : 0 < M) (h : Reaches System.Fresh (System.Step ix M efc Recognised) S) :
    Upright M S ∧ EntryLive S.graph := by
  refine h.invariant (I := fun S => Upright M S ∧ EntryLive S.graph) (fun S hS => ?_)
    fun S S' ⟨hu, he⟩ hst => ⟨?_, he.step hM hu hst⟩
  · rw [show S = _ from hS]
    exact ⟨upright_create, fun n hn => absurd hn (by simp [GraphState.create])⟩
  · obtain ⟨c, supply, hok, hc⟩ := hst
    exact hu.step hM ⟨c, supply, hok.1, hc⟩

/-- If no vector is removed while one of its records below the top is the entry
point, the entry point names a record of its level, with its owner. -/
theorem entry_live (hM : 0 < M) (h : Reaches System.Fresh (System.Step ix M efc Recognised) S) {n : Node}
    (hn : S.graph.entryPoint = some n) :
    (S.graph.level S.graph.entryLevel).Live n.nid.ref ∧
      (S.graph.level S.graph.entryLevel).ownerOf n.nid.ref = some n.vid := by
  obtain ⟨hu, he⟩ := reaches_entryLive hM h
  exact ⟨he n hn, (hu.entry n hn).2 (he n hn)⟩

/-- Five vectors with a node at level 1. The removes of three of them leave the
level-0 record of vector 1 as the entry point; then vector 1 itself is removed. -/
def lowEntry : List (Call ℕ × Supply) :=
  [addAt 0 1 [11, 10], addAt 1 1 [21, 20], addAt 2 1 [31, 30, 81], addAt 3 1 [41, 40, 82, 83],
    addAt 4 1 [51, 50, 84, 85], takeOut 2 1 31, takeOut 0 1 11, takeOut 3 1 41, takeOut 1 1 21]

def lowEntryPoints : List (ℤ × ℤ) := [(16, 0), (22, 0), (19, 0), (10, 0), (26, 1)]

theorem entry_freed : ∃ S n, Reaches System.Fresh (System.Step (pointIndex lowEntryPoints) 2 2 Orderly) S ∧
    S.graph.entryPoint = some n ∧ ¬ (S.graph.level S.graph.entryLevel).Live n.nid.ref := by
  have hplay : (System.play (pointIndex lowEntryPoints) 2 2 ⟨GraphState.create, []⟩ lowEntry).any
      (fun S => S.graph.entryPoint.any fun n =>
        !decide ((S.graph.level S.graph.entryLevel).Live n.nid.ref)) = true := by decide +kernel
  obtain ⟨S, hS, hp⟩ := Option.any_eq_true _ _ |>.mp hplay
  obtain ⟨n, hn, hp⟩ := Option.any_eq_true _ _ |>.mp hp
  refine ⟨S, n, System.reaches_play ?_ (.init rfl) hS, hn, by simpa using hp⟩
  simp only [lowEntry, addAt, takeOut, List.mem_cons, List.not_mem_nil, or_false, forall_eq_or_imp, forall_eq]
  simp [Orderly]

/-- One vector, inserted and marked. -/
def oneVector : List (Call ℕ × Supply) :=
  [addAt 0 0 [10], (.markDelete 2 ⟨⟨⟨10, false⟩, 0⟩, 0, 1⟩ true, ⟨[], []⟩)]

theorem reaches_oneVector {A : System → Call ℕ → Supply → Prop}
    (hallow : ∀ c ∈ oneVector, ∀ S, A S c.1 c.2) : ∃ S,
    Reaches System.Fresh (System.Step (pointIndex [(0, 0)]) 2 2 A) S ∧
      S.graph.entryPoint = some ⟨⟨10, false⟩, 0⟩ := by
  have hplay : (System.play (pointIndex [(0, 0)]) 2 2 ⟨GraphState.create, []⟩ oneVector).any
      (fun S => decide (S.graph.entryPoint = some ⟨⟨10, false⟩, 0⟩)) = true := by decide +kernel
  obtain ⟨S, hS, hp⟩ := Option.any_eq_true _ _ |>.mp hplay
  exact ⟨S, System.reaches_play hallow (.init rfl) hS, by simpa using hp⟩

theorem recognised_oneVector : ∀ c ∈ oneVector, ∀ S, Recognised S c.1 c.2 := by
  simp only [oneVector, addAt, List.mem_cons, List.not_mem_nil, or_false, forall_eq_or_imp, forall_eq]
  simp [Recognised, Orderly, AtTop]

theorem entry_live_oneVector : ∃ S, Reaches System.Fresh
    (System.Step (pointIndex [(0, 0)]) 2 2 Recognised) S ∧
    (S.graph.level S.graph.entryLevel).Live 10 ∧ (S.graph.level S.graph.entryLevel).ownerOf 10 = some 0 := by
  obtain ⟨S, hS, hn⟩ := reaches_oneVector recognised_oneVector
  exact ⟨S, hS, entry_live (by decide) hS hn⟩

/-! ### An unset entry point -/

/-- If the entry point's vector is removed and there are others, it has a link at some level. -/
def Connected (S : System) (c : Call Data) : Prop :=
  ∀ trx h, c = .remove trx h → IsEntry S.graph h.node h.level → (∃ h' ∈ S.handles, h' ≠ h) →
    ∃ k ≤ h.level, (S.graph.level k).names (h.refAt S.graph k) ≠ []

/-- A recognised call that leaves no vector without an entry point. -/
def Replaced (S : System) (c : Call Data) (supply : Supply) : Prop := Recognised S c supply ∧ Connected S c

theorem Upright.nodup (hu : Upright M S) : S.handles.Nodup := by
  refine hu.apart.imp_of_mem fun {h h'} hh _ ha he => ?_
  subst he
  exact ha 0 (by omega) (by omega) rfl

/-- A remove unsets the entry point only with the last vector. -/
theorem unset_remove (hM : 0 < M) (hu : Upright M S) (hq : S.graph.Quiet) (hh : h ∈ S.handles)
    (hset : S.graph.entryPoint = none → S.handles = [])
    (hcon : IsEntry S.graph h.node h.level → (∃ h' ∈ S.handles, h' ≠ h) →
      ∃ k ≤ h.level, (S.graph.level k).names (h.refAt S.graph k) ≠ [])
    (hrun : remove ⟨ix, M, efc, h.stamp⟩ h.node h.level S.graph = (.ok (), g'))
    (hn : g'.entryPoint = none) : S.handles.erase h = [] := by
  obtain ⟨-, -, hyes, hno⟩ := hu.remove hM hq hh hrun
  by_cases hent : IsEntry S.graph h.node h.level
  · refine List.eq_nil_iff_forall_not_mem.mpr fun h' hh' => ?_
    have hne : h' ≠ h := fun he => (hu.nodup.not_mem_erase) (he ▸ hh')
    obtain ⟨k, hk, hnames⟩ := hcon hent ⟨h', List.mem_of_mem_erase hh', hne⟩
    exact hnames ((hyes hent).alone hn k hk)
  · rw [(hno hent).1] at hn
    rw [hset hn] at hh
    exact absurd hh (by simp)

theorem reaches_unset (hM : 0 < M) (h : Reaches System.Fresh (System.Step ix M efc Replaced) S) :
    Upright M S ∧ EntryLive S.graph ∧ (S.graph.entryPoint = none → S.handles = []) := by
  refine h.invariant (I := fun S => Upright M S ∧ EntryLive S.graph ∧
    (S.graph.entryPoint = none → S.handles = [])) (fun S hS => ?_) fun S S' ⟨hu, he, hset⟩ hst => ?_
  · rw [show S = _ from hS]
    exact ⟨upright_create, fun n hn => absurd hn (by simp [GraphState.create]), fun _ => rfl⟩
  · obtain ⟨c, supply, ⟨hrec, hcon⟩, hc⟩ := hst
    refine ⟨hu.step hM ⟨c, supply, hrec.1, hc⟩, he.step hM hu ⟨c, supply, hrec, hc⟩, fun hn => ?_⟩
    obtain ⟨⟨hq, htrx⟩, -⟩ := hrec
    have hu' := hu.graph_supply supply
    rcases System.call_cases hc with ⟨trx, data, level, node, rfl, hrun, hh⟩ |
      ⟨trx, h, mark, rfl, hmem, hrun, hh⟩ | ⟨trx, h, rfl, hmem, hrun, hh⟩
    · obtain ⟨-, -, ⟨h1, -⟩ | ⟨hsame, hsome⟩⟩ := hu'.insert hM hq hrun
      · rw [h1] at hn
        exact absurd hn (by simp)
      · rw [hsame.1] at hn
        rw [hn] at hsome
        exact absurd hsome (by simp)
    · obtain ⟨-, hsame, -⟩ := hu'.markDelete hq hmem hrun
      rw [hsame.1] at hn
      rw [hset hn] at hmem
      exact absurd hmem (by simp)
    · obtain rfl := htrx trx h rfl
      rw [hh]
      exact unset_remove (S := ⟨{ S.graph with toSupply := supply }, S.handles⟩) hM hu' hq hmem hset
        (hcon _ h rfl) hrun hn

/-- If besides a removed entry point always has a link, the entry point is unset
exactly when there is no record at level 0. -/
theorem entry_unset_iff (hM : 0 < M) (h : Reaches System.Fresh (System.Step ix M efc Replaced) S) :
    S.graph.entryPoint = none ↔ ∀ a, ¬ (S.graph.level 0).Live a := by
  obtain ⟨hu, he, hset⟩ := reaches_unset hM h
  constructor
  · intro hn a ha
    obtain ⟨h, hh, -⟩ := hu.covered 0 a ha
    rw [hset hn] at hh
    exact absurd hh (by simp)
  · intro hno
    rcases hn : S.graph.entryPoint with _ | n
    · rfl
    · obtain ⟨h, hh, -⟩ := hu.covered _ _ (he n hn)
      exact absurd ((hu.standing h hh).mem_live (Nat.zero_le _)) (hno _)

theorem entry_unset_iff_oneVector : ∃ S, Reaches System.Fresh
    (System.Step (pointIndex [(0, 0)]) 2 2 Replaced) S ∧
    (S.graph.entryPoint = none ↔ ∀ a, ¬ (S.graph.level 0).Live a) := by
  obtain ⟨S, hS, -⟩ := reaches_oneVector (A := Replaced) fun c hc S =>
    ⟨recognised_oneVector c hc S, by
      revert c
      simp only [oneVector, addAt, List.mem_cons, List.not_mem_nil, or_false, forall_eq_or_imp, forall_eq]
      simp [Connected]⟩
  exact ⟨S, hS, entry_unset_iff (by decide) hS⟩

/-- Five vectors at level 0. Three removes leave two that are not linked, one of
them the entry point; then that one is removed. -/
def lostVector : List (Call ℕ × Supply) :=
  [addAt 0 0 [10, 80, 81], addAt 1 0 [20, 82, 83], addAt 2 0 [30, 84, 85], addAt 3 0 [40, 86, 87, 88],
    addAt 4 0 [50, 89, 90, 91], takeOut 0 0 10, takeOut 3 0 40, takeOut 4 0 50, takeOut 1 0 20]

def lostVectorPoints : List (ℤ × ℤ) := [(2, 2), (0, 16), (18, 6), (1, 14), (19, 9)]

theorem entry_unset_early : ∃ S, Reaches System.Fresh
    (System.Step (pointIndex lostVectorPoints) 2 2 Orderly) S ∧
    S.graph.entryPoint = none ∧ (S.graph.level 0).Live 30 := by
  have hplay : (System.play (pointIndex lostVectorPoints) 2 2 ⟨GraphState.create, []⟩ lostVector).any
      (fun S => decide (S.graph.entryPoint = none) && decide ((S.graph.level 0).Live 30)) = true := by
    decide +kernel
  obtain ⟨S, hS, hp⟩ := Option.any_eq_true _ _ |>.mp hplay
  simp only [Bool.and_eq_true, decide_eq_true_eq] at hp
  refine ⟨S, System.reaches_play ?_ (.init rfl) hS, hp⟩
  simp only [lostVector, addAt, takeOut, List.mem_cons, List.not_mem_nil, or_false, forall_eq_or_imp, forall_eq]
  simp [Orderly]

/-! ### Towers -/

/-- Every vector is a complete tower: one record a level, each naming the one
below, with its owner; every record is of one vector, and so is the entry point
and what a link names. -/
structure Towered (S : System) : Prop where
  nodup : S.handles.Nodup
  complete : ∀ h ∈ S.handles, h.node.nid = ⟨h.refAt S.graph h.level, false⟩ ∧
    ∀ k ≤ h.level, ∃ e, (S.graph.level k).entry (h.refAt S.graph k) = some e ∧ e.owner = h.node.vid ∧
      (0 < k → e.lowerLevel = some ⟨h.refAt S.graph (k - 1), false⟩)
  unique : ∀ l a, (S.graph.level l).Live a → ∃! h, h ∈ S.handles ∧ l ≤ h.level ∧ h.refAt S.graph l = a
  owned : (∀ h ∈ S.handles, ∀ h' ∈ S.handles, h.node.vid = h'.node.vid → h = h') →
    ∀ h ∈ S.handles, ∀ l a e, (S.graph.level l).entry a = some e → e.owner = h.node.vid →
      l ≤ h.level ∧ a = h.refAt S.graph l
  lower : ∀ l a b e f, (S.graph.level (l + 1)).entry a = some e → (S.graph.level (l + 1)).entry b = some f →
    e.lowerLevel = f.lowerLevel → a = b
  entry : ∀ n, S.graph.entryPoint = some n →
    ∃ h ∈ S.handles, S.graph.entryLevel ≤ h.level ∧ h.refAt S.graph S.graph.entryLevel = n.nid.ref
  links : ∀ l a, ∀ n ∈ (S.graph.level l).links a, n.nid.incoming = false →
    ∃ h ∈ S.handles, l ≤ h.level ∧ h.refAt S.graph l = n.nid.ref

theorem bone_of_entry {g : GraphState} {l a : ℕ} {e : NeighbourEntry} (he : (g.level l).entry a = some e) :
    ∃ b, g.bone l a = some b ∧ b.owner = e.owner ∧ b.lowerLevel = e.lowerLevel := by
  obtain ⟨r, hr, rfl⟩ := Option.map_eq_some_iff.mp he
  exact ⟨r.bone, by simp [GraphState.bone, LevelStore.bone, hr], rfl, rfl⟩

theorem entry_of_bone {g : GraphState} {l a : ℕ} {b : Bone} (hb : g.bone l a = some b) :
    ∃ e, (g.level l).entry a = some e ∧ e.owner = b.owner ∧ e.lowerLevel = b.lowerLevel := by
  obtain ⟨r, hr, rfl⟩ := Option.map_eq_some_iff.mp hb
  exact ⟨r.entry, by simp [LevelStore.entry, hr], rfl, rfl⟩

/-- The record of a vector with what it says. -/
theorem Upright.entry_at (hu : Upright M S) {l a : ℕ} {e : NeighbourEntry}
    (he : (S.graph.level l).entry a = some e) :
    ∃ h ∈ S.handles, l ≤ h.level ∧ h.refAt S.graph l = a ∧ e.owner = h.node.vid ∧
      (0 < l → e.lowerLevel = some ⟨h.refAt S.graph (l - 1), false⟩) := by
  obtain ⟨h, hh, hle, rfl⟩ := hu.covered l a (live_of_entry he)
  obtain ⟨b, hb, ho, hl⟩ := bone_of_entry he
  obtain ⟨b', hb', ho', -, hl'⟩ := (hu.standing h hh).2 l hle
  obtain rfl : b = b' := Option.some.inj (hb.symm.trans hb')
  exact ⟨h, hh, hle, rfl, ho.symm.trans ho', fun h0 => hl.symm.trans (hl' h0)⟩

/-- If no vector is removed while one of its records below the top is the entry
point, every vector is a complete tower with the node its insert returned on top. -/
theorem towered (hM : 0 < M) (h : Reaches System.Fresh (System.Step ix M efc Recognised) S) : Towered S := by
  obtain ⟨hu, he⟩ := reaches_entryLive hM h
  refine ⟨hu.nodup, fun h hh => ⟨?_, fun k hk => ?_⟩, fun l a ha => ?_, fun hvid h hh l a e hent ho => ?_,
    fun l a b e f h1 h2 heq => ?_, fun n hn => hu.covered _ _ (he n hn), fun l a n hn hi => ?_⟩
  · rw [show h.refAt S.graph h.level = _ from tower_top _ _ _, ← (hu.standing h hh).1]
  · obtain ⟨b, hb, ho, -, hl⟩ := (hu.standing h hh).2 k hk
    obtain ⟨e, he, ho', hl'⟩ := entry_of_bone hb
    exact ⟨e, he, ho'.trans ho, fun h0 => hl'.trans (hl h0)⟩
  · obtain ⟨h, hh, hle, hr⟩ := hu.covered l a ha
    exact ⟨h, ⟨hh, hle, hr⟩, fun h' ⟨hh', hle', hr'⟩ => hu.eq_of_refAt hh' hh hle' hle (hr'.trans hr.symm)⟩
  · obtain ⟨h', hh', hle, rfl, ho', -⟩ := hu.entry_at hent
    obtain rfl := hvid h hh h' hh' (ho.symm.trans ho')
    exact ⟨hle, rfl⟩
  · -- the vectors of the two records have the record below in common
    obtain ⟨h, hh, hle, rfl, -, hl⟩ := hu.entry_at h1
    obtain ⟨h', hh', hle', rfl, -, hl'⟩ := hu.entry_at h2
    rw [hl (by omega), hl' (by omega), Nat.add_sub_cancel] at heq
    obtain rfl := hu.eq_of_refAt (k := l) hh hh' (by omega) (by omega) (by simpa using heq)
    rfl
  · by_cases ha : (S.graph.level l).Live a
    · exact hu.covered l _ ((hu.names l).symm a ha _ (mem_names_of_link hn)).1
    · rw [(not_live_links ha).1] at hn
      exact absurd hn (by simp)

theorem towered_oneVector : ∃ S, Reaches System.Fresh
    (System.Step (pointIndex [(0, 0)]) 2 2 Recognised) S ∧ Towered S := by
  obtain ⟨S, hS, -⟩ := reaches_oneVector recognised_oneVector
  exact ⟨S, hS, towered (by decide) hS⟩

/-- The history that frees the entry point leaves it to no tower. -/
theorem entry_of_no_tower : ∃ S, Reaches System.Fresh
    (System.Step (pointIndex lowEntryPoints) 2 2 Orderly) S ∧ ¬ Towered S := by
  have hplay : (System.play (pointIndex lowEntryPoints) 2 2 ⟨GraphState.create, []⟩ lowEntry).any
      (fun S => S.graph.entryPoint.any fun n => S.handles.all fun h =>
        !decide (h.refAt S.graph S.graph.entryLevel = n.nid.ref)) = true := by decide +kernel
  obtain ⟨S, hS, hp⟩ := Option.any_eq_true _ _ |>.mp hplay
  obtain ⟨n, hn, hp⟩ := Option.any_eq_true _ _ |>.mp hp
  refine ⟨S, System.reaches_play ?_ (.init rfl) hS, fun ht => ?_⟩
  · simp only [lowEntry, addAt, takeOut, List.mem_cons, List.not_mem_nil, or_false, forall_eq_or_imp, forall_eq]
    simp [Orderly]
  · obtain ⟨h, hh, -, hr⟩ := ht.entry n hn
    simpa [hr] using List.all_eq_true.mp hp h hh

end Hnsw
end VsqlVector
