/-
# The graph operations in their scratch buffers

Run with the buffers of a `GraphContext`, whatever these hold, `link_neighbours`,
`replace_neighbours` and `unlink_neighbours` do what they do with a list of its own
for every list: the same storage calls with the same outcomes, the same records
after each and the same result. No index is outside its buffer and every slot list
handed to `update` is in order.

A program with buffers and one without are run side by side (`Matches`). What is
known of the buffers at each point is a predicate, and a call keeps every predicate
that does not speak of the buffers it writes.

Key definitions: `Stored`, `Scratch.Runs`, `Scratch.Matches`.
Key theorem: `Scratch.scratch_buffers`.
-/
import VsqlVector.Lib.Compaction
import VsqlVector.Lib.Simulation
import VsqlVector.Index.GraphContext

namespace VsqlVector
namespace Hnsw

/-! ### Ids that a record can hold -/

def NID.Fits (n : NID) : Prop := 0 < n.ref ∧ n.ref < 2 ^ incomingBit

instance (n : NID) : Decidable n.Fits := inferInstanceAs (Decidable (_ ∧ _))

def Node.Fits (n : Node) : Prop := n.nid.Fits ∧ n.vid < 2 ^ 47

instance (n : Node) : Decidable n.Fits := inferInstanceAs (Decidable (_ ∧ _))

theorem NID.Fits.word_pos {n : NID} (h : n.Fits) : 0 < NID.word (some n) := Nat.add_pos_left h.1 _

theorem NID.Fits.word_lt {n : NID} (h : n.Fits) : NID.word (some n) < 2 ^ 47 := by
  obtain ⟨-, hlt⟩ := h
  have hbit : (2 : ℕ) ^ 47 = 2 ^ incomingBit + 2 ^ incomingBit := by norm_num [incomingBit]
  show n.ref + (if n.incoming then 2 ^ incomingBit else 0) < 2 ^ 47
  split <;> omega

/-- A word holds an id. -/
theorem NID.ofWord_word : ∀ {o : Option NID}, (∀ n ∈ o, n.Fits) → NID.ofWord (NID.word o) = o
  | none, _ => rfl
  | some n, h => by
    have hn := h n rfl
    have hne : NID.word (some n) ≠ invalidId := Nat.ne_of_gt hn.word_pos
    rw [NID.ofWord, if_neg hne]
    obtain ⟨ref, incoming⟩ := n
    have hlt : ref < 2 ^ incomingBit := hn.2
    cases incoming with
    | false =>
      have hword : NID.word (some ⟨ref, false⟩) = ref := by simp [NID.word]
      rw [hword, Nat.mod_eq_of_lt hlt, Nat.testBit_lt_two_pow hlt]
    | true =>
      have hword : NID.word (some ⟨ref, true⟩) = 2 ^ incomingBit + ref := by simp [NID.word, Nat.add_comm]
      rw [hword, Nat.add_mod_left, Nat.mod_eq_of_lt hlt, Nat.testBit_two_pow_add_eq, Nat.testBit_lt_two_pow hlt]
      rfl

theorem NID.Fits.setIncoming {n : NID} (h : n.Fits) : n.setIncoming.Fits := h

theorem NID.Fits.clearIncoming {n : NID} (h : n.Fits) : n.clearIncoming.Fits := h

/-! ### The chunks of an update -/

section Chunks

variable {L : LevelLayout} {data : List (BitVec 8)}

/-- The chunks of an update of slots of a node's list. -/
def nodeChunks (L : LevelLayout) (ws : List (ℕ × Option Node)) : List (ℕ × ℕ) :=
  ws.flatMap fun w => [(L.neighbourNidChunk w.1, (Node.words w.2).nid), (L.neighbourVidChunk w.1, (Node.words w.2).vid)]

/-- The slots and values of an update that its callers promise. -/
structure Writable (n : ℕ) (ws : List (ℕ × Option Node)) : Prop where
  below : Below n (ws.map Prod.fst)
  fits : ∀ w ∈ ws, ∀ v ∈ w.2, v.Fits

theorem Writable.args {ws : List (ℕ × Option Node)} (h : Writable L.maxNeighbours ws) :
    Serial.EntryArgs L ⟨0, 0, ws.map fun w => Node.words w.2, 0⟩ ⟨false, false, true, false⟩ (ws.map Prod.fst) := by
  refine ⟨h.below.1, h.below.2, ⟨by norm_num, by norm_num, fun n hn => ?_, by norm_num⟩, fun hl => by cases hl⟩
  obtain ⟨w, hw, rfl⟩ := List.mem_map.mp hn
  rcases hv : w.2 with _ | v
  · exact ⟨by norm_num [Node.words, invalidId], by norm_num [Node.words, invalidId]⟩
  · obtain ⟨hnid, hvid⟩ := h.fits w hw v hv
    exact ⟨hnid.word_lt, hvid⟩

theorem nodeChunks_eq (ws : List (ℕ × Option Node)) : nodeChunks L ws =
    Serial.entryChunks L ⟨0, 0, ws.map fun w => Node.words w.2, 0⟩ ⟨false, false, true, false⟩ (ws.map Prod.fst) := by
  simp [nodeChunks, Serial.entryChunks, List.zip_map', List.flatMap_map]

/-- What a record becomes when both chunks of a slot are written. -/
theorem setChunk_slot (hM : L.M ≤ 128) {slot : ℕ} (hslot : slot < L.maxNeighbours) (e : NeighbourEntry)
    {o : Option Node} (ho : ∀ n ∈ o, n.Fits) :
    (e.setChunk L (L.neighbourNidChunk slot) (Node.words o).nid).setChunk L (L.neighbourVidChunk slot)
      (Node.words o).vid = { e with neighbours := e.neighbours.set slot o } := by
  have hbase := LevelLayout.neighboursBaseChunk_eq (L := L)
  have hnid := LevelLayout.neighbourNidChunk_eq hM hslot
  have hvid := LevelLayout.neighbourVidChunk_eq hM hslot
  have hover := LevelLayout.neighbourOverflowChunk_eq hM (L := L)
  have hset (e : NeighbourEntry) (k w : ℕ) (hk : k < 2) : e.setChunk L (L.neighboursBaseChunk + 2 * slot + k) w =
      { e with neighbours := e.neighbours.set slot <|
          if k = 0 then (NID.ofWord w).map fun nid => ⟨nid, (((e.neighbours[slot]?).join).map Node.vid).getD invalidId⟩
          else ((e.neighbours[slot]?).join).map fun n => { n with vid := w } } := by
    have hpos := LevelLayout.neighboursBaseChunk_pos (L := L)
    have h0 : L.neighboursBaseChunk + 2 * slot + k ≠ LevelLayout.ownerChunk := by
      unfold LevelLayout.ownerChunk
      omega
    have h1 : ¬ (L.hasLower ∧ L.neighboursBaseChunk + 2 * slot + k = LevelLayout.lowerLevelChunk) := by
      rintro ⟨hl, heq⟩
      rw [hbase, if_pos hl] at heq
      unfold LevelLayout.lowerLevelChunk LevelLayout.ownerChunk at heq
      omega
    have h2 : L.neighboursBaseChunk + 2 * slot + k ≠ L.neighbourOverflowChunk := by omega
    unfold NeighbourEntry.setChunk
    rw [if_neg h0, if_neg h1, if_neg h2]
    have hdiv : (L.neighboursBaseChunk + 2 * slot + k - L.neighboursBaseChunk) / 2 = slot := by omega
    have hmod : (L.neighboursBaseChunk + 2 * slot + k - L.neighboursBaseChunk) % 2 = k := by omega
    rw [hdiv, hmod]
  have hfirst := hset e 0 (Node.words o).nid (by norm_num)
  rw [Nat.add_zero, if_pos rfl, ← hnid] at hfirst
  rw [hfirst, hvid, hset _ 1 _ (by norm_num), if_neg (by norm_num)]
  congr 1
  rw [List.set_set]
  rcases Nat.lt_or_ge slot e.neighbours.length with hlt | hge
  · congr 1
    rw [List.getElem?_set_self hlt]
    rcases o with _ | n
    · simp [Node.words, NID.ofWord]
    · have hword : NID.ofWord (Node.words (some n)).nid = some n.nid :=
        NID.ofWord_word (o := some n.nid) fun m hm => by
          cases hm
          exact (ho n rfl).1
      rw [hword]
      rfl
  · rw [List.set_eq_of_length_le hge, List.set_eq_of_length_le hge]

/-- The chunks of a list of slots put the values in place. -/
theorem overwrite_nodeChunks (hM : L.M ≤ 128) : ∀ {ws : List (ℕ × Option Node)},
    (∀ w ∈ ws, w.1 < L.maxNeighbours ∧ ∀ v ∈ w.2, v.Fits) → (∀ k ∈ nodeChunks L ws, Serial.readChunk data k.1 = k.2) →
    ∀ e : NeighbourEntry, e.overwrite L ((nodeChunks L ws).map Prod.fst) data =
      { e with neighbours := writeSlots ws e.neighbours }
  | [], _, _, e => rfl
  | w :: ws, hws, hdata, e => by
    have hcons : nodeChunks L (w :: ws) = (L.neighbourNidChunk w.1, (Node.words w.2).nid) ::
        (L.neighbourVidChunk w.1, (Node.words w.2).vid) :: nodeChunks L ws := rfl
    rw [hcons] at hdata ⊢
    obtain ⟨h1, hdata⟩ := List.forall_mem_cons.mp hdata
    obtain ⟨h2, hdata⟩ := List.forall_mem_cons.mp hdata
    obtain ⟨⟨hlt, hv⟩, hws⟩ := List.forall_mem_cons.mp hws
    rw [NeighbourEntry.overwrite, List.map_cons, List.map_cons, List.foldl_cons, List.foldl_cons, h1, h2,
      setChunk_slot hM hlt e hv]
    exact overwrite_nodeChunks hM hws hdata { e with neighbours := e.neighbours.set w.1 w.2 }

theorem setChunk_overflow (hM : L.M ≤ 128) (e : NeighbourEntry) {o : Option NID} (ho : ∀ n ∈ o, n.Fits) :
    e.setChunk L L.neighbourOverflowChunk (NID.word o) = { e with overflow := o } := by
  have hover := LevelLayout.neighbourOverflowChunk_eq hM (L := L)
  have hpos := LevelLayout.neighboursBaseChunk_pos (L := L)
  have hbase := LevelLayout.neighboursBaseChunk_eq (L := L)
  have h0 : L.neighbourOverflowChunk ≠ LevelLayout.ownerChunk := by
    unfold LevelLayout.ownerChunk
    omega
  have h1 : ¬ (L.hasLower ∧ L.neighbourOverflowChunk = LevelLayout.lowerLevelChunk) := by
    rintro ⟨hl, heq⟩
    rw [hbase, if_pos hl] at hover
    unfold LevelLayout.lowerLevelChunk LevelLayout.ownerChunk at heq
    omega
  rw [NeighbourEntry.setChunk, if_neg h0, if_neg h1, if_pos rfl, NID.ofWord_word ho]

/-- The chunks of an update of slots of an overflow record. -/
def nidChunks (ws : List (ℕ × Option NID)) : List (ℕ × ℕ) :=
  ws.map fun w => (LevelLayout.incomingChunk w.1, NID.word w.2)

structure WritableIds (n : ℕ) (ws : List (ℕ × Option NID)) : Prop where
  below : Below n (ws.map Prod.fst)
  fits : ∀ w ∈ ws, ∀ v ∈ w.2, v.Fits

theorem WritableIds.args {ws : List (ℕ × Option NID)} (h : WritableIds L.overflowCapacity ws) :
    Serial.OverflowArgs L ⟨ws.map fun w => NID.word w.2, 0⟩ (ws.map Prod.fst) := by
  refine ⟨h.below.1, h.below.2, ⟨fun n hn => ?_, by norm_num⟩⟩
  obtain ⟨w, hw, rfl⟩ := List.mem_map.mp hn
  rcases hv : w.2 with _ | v
  · norm_num [NID.word, invalidId]
  · exact (h.fits w hw v hv).word_lt

theorem nidChunks_eq (ws : List (ℕ × Option NID)) : nidChunks ws =
    Serial.overflowChunks L ⟨ws.map fun w => NID.word w.2, 0⟩ ⟨true, false⟩ (ws.map Prod.fst) := by
  simp [nidChunks, Serial.overflowChunks, List.zip_map']

theorem overwrite_nidChunks : ∀ {ws : List (ℕ × Option NID)},
    (∀ w ∈ ws, w.1 < L.overflowCapacity ∧ ∀ v ∈ w.2, v.Fits) →
    (∀ k ∈ nidChunks ws, Serial.readChunk data k.1 = k.2) →
    ∀ e : OverflowEntry, e.overwrite L ((nidChunks ws).map Prod.fst) data =
      { e with incoming := writeSlots ws e.incoming }
  | [], _, _, e => rfl
  | w :: ws, hws, hdata, e => by
    have hcons : nidChunks (w :: ws) = (LevelLayout.incomingChunk w.1, NID.word w.2) :: nidChunks ws := rfl
    rw [hcons] at hdata ⊢
    obtain ⟨h1, hdata⟩ := List.forall_mem_cons.mp hdata
    obtain ⟨⟨hlt, hv⟩, hws⟩ := List.forall_mem_cons.mp hws
    have hne : LevelLayout.incomingChunk w.1 ≠ L.overflowChunk := by
      rw [LevelLayout.overflowChunk_eq]
      exact Nat.ne_of_lt hlt
    rw [OverflowEntry.overwrite, List.map_cons, List.foldl_cons, h1, OverflowEntry.setChunk, if_neg hne,
      NID.ofWord_word hv]
    exact overwrite_nidChunks hws hdata { e with incoming := e.incoming.set w.1 w.2 }

theorem setChunk_next (e : OverflowEntry) {o : Option NID} (ho : ∀ n ∈ o, n.Fits) :
    e.setChunk L L.overflowChunk (NID.word o) = { e with overflow := o } := by
  rw [OverflowEntry.setChunk, if_pos rfl, NID.ofWord_word ho]

end Chunks

/-! ### Side by side -/

/-- The records of a level as storage has them: every list has all its slots, and
every id has room in a record, that of a record to come included. -/
structure Stored (c : LevelCtx) (s : LevelState) : Prop where
  slots : ∀ a r, s.nodes.lookup a = some r → r.entry.neighbours.length = c.maxNeighbours ∧
    ∀ o ∈ r.entry.neighbours, ∀ n ∈ o, n.Fits
  cells : ∀ o q, s.overflows.lookup o = some q → q.entry.incoming.length = c.overflowCapacity
  refs : ∀ r ∈ s.refs, r < 2 ^ incomingBit

namespace Scratch

open Prog IndexGraph

variable {c : LevelCtx} {α β γ : Type} {P P' : GraphContext → Prop}

def Sized (M : ℕ) (x : GraphContext) : Prop := x.sizes = (makeGraphContext M).sizes

/-- The state with the buffers goes with the one without, nothing went wrong so far
and `P` holds of the buffers. -/
structure Runs (c : LevelCtx) (P : GraphContext → Prop) (s : LevelState) (t : ScratchState) : Prop where
  same : t.toLevelState = s
  sized : Sized c.M t.ctx
  inside : ∀ a ∈ t.accesses, a.1 < a.2
  ascending : ∀ l ∈ t.slotLists, l.Pairwise (· < ·)
  stored : Stored c s
  holds : P t.ctx

theorem Runs.mono {s : LevelState} {t : ScratchState} (h : Runs c P s t) (hP : P' t.ctx) : Runs c P' s t :=
  { h with holds := hP }

/-- From buffers with `P` the program `m` does what `p` does, and leaves `Q`. -/
def Matches (c : LevelCtx) (P : GraphContext → Prop) (p : LevelProg α) (m : ScratchProg β)
    (Q : α → β → GraphContext → Prop) : Prop :=
  ∀ s t, Runs c P s t → Computes (Runs c fun _ => True) (fun a b => Runs c (Q a b)) p m s t

/-- The program works on the buffers alone. -/
def Local (c : LevelCtx) (P : GraphContext → Prop) (m : ScratchProg β) (Q : β → GraphContext → Prop) : Prop :=
  ∀ s, Triple (Runs c P s) m (fun b => Runs c (Q b) s) fun _ => False

namespace Local

variable {Q Q' : β → GraphContext → Prop} {R : γ → GraphContext → Prop} {m : ScratchProg β}

theorem pure {b : β} (h : ∀ x, P x → Q b x) : Local c P (Pure.pure b) Q := fun _ =>
  Triple.pure fun _ ht => ht.mono (h _ ht.holds)

theorem bind {g : β → ScratchProg γ} (h : Local c P m Q) (hg : ∀ b, Local c (Q b) (g b) R) :
    Local c P (m >>= g) R := fun s => (h s).bind fun b => hg b s

theorem conseq (h : Local c P m Q) (hP : ∀ x, P' x → P x) (hQ : ∀ b x, Q b x → Q' b x) : Local c P' m Q' := fun s =>
  (h s).conseq (fun _ ht => ht.mono (hP _ ht.holds)) (fun _ _ ht => ht.mono (hQ _ _ ht.holds)) fun _ h => h

/-- No program changes the sizes. -/
theorem sized (h : Local c P m Q) : Local c P m fun b x => Sized c.M x ∧ Q b x := fun s =>
  (h s).conseq (fun _ h => h) (fun _ _ ht => ht.mono ⟨ht.sized, ht.holds⟩) fun _ h => h

/-- What the predicate says apart from the buffers. -/
theorem of_fact {A : Prop} (hA : ∀ x, P x → A) (h : A → Local c P m Q) : Local c P m Q := fun _ _ ht =>
  h (hA _ ht.holds) _ _ ht

theorem foldlM_range {I : ℕ → β → GraphContext → Prop} {g : β → ℕ → ScratchProg β} {n : ℕ}
    (h : ∀ i < n, ∀ b, Local c (I i b) (g b i) (I (i + 1))) (b : β) :
    Local c (I 0 b) ((List.range n).foldlM g b) (I n) := fun s =>
  Triple.foldlM_range (I := fun i b => Runs c (I i b) s) (fun i hi b => h i hi b s) b

end Local

namespace Matches

variable {Q Q' : α → β → GraphContext → Prop} {p : LevelProg α} {m : ScratchProg β} {α' β' : Type}
  {R : α' → β' → GraphContext → Prop}

theorem pure {a : α} {b : β} (h : ∀ x, P x → Q a b x) : Matches c P (Pure.pure a) (Pure.pure b) Q :=
  fun _ _ ht => Computes.pure (ht.mono (h _ ht.holds))

theorem fail {e : StorageError} : Matches c P (Prog.fail e) (Prog.fail e) Q :=
  fun _ _ ht => Computes.fail (ht.mono trivial)

theorem bind {f : α → LevelProg α'} {g : β → ScratchProg β'} (h : Matches c P p m Q)
    (hnext : ∀ a b, Matches c (Q a b) (f a) (g b) R) : Matches c P (p >>= f) (m >>= g) R := fun _ _ ht =>
  (h _ _ ht).bind fun a b _ _ h' => hnext a b _ _ h'

theorem conseq (h : Matches c P p m Q) (hP : ∀ x, P' x → P x) (hQ : ∀ a b x, Q a b x → Q' a b x) :
    Matches c P' p m Q' := fun _ _ ht =>
  (h _ _ (ht.mono (hP _ ht.holds))).conseq (fun _ _ h => h) fun _ _ _ _ h' => h'.mono (hQ _ _ _ h'.holds)

theorem of_fact {A : Prop} (hA : ∀ x, P x → A) (h : A → Matches c P p m Q) : Matches c P p m Q := fun _ _ ht =>
  h (hA _ ht.holds) _ _ ht

/-- A part of the program with the buffers that works on these alone. -/
theorem right {n : ScratchProg γ} {g : γ → ScratchProg β} {S : γ → GraphContext → Prop} (hn : Local c P n S)
    (h : ∀ b, Matches c (S b) p (g b) Q) : Matches c P p (n >>= g) Q := fun s _ ht =>
  Computes.right (hn s) ht fun b t' ht' => h b s t' ht'

/-- Work on the buffers behind a part that goes with `p`. -/
theorem trail {g : β → ScratchProg γ} {S : α → γ → GraphContext → Prop} (h : Matches c P p m Q)
    (hg : ∀ a b, Local c (Q a b) (g b) (S a)) : Matches c P p (m >>= g) S := by
  have hbind : Matches c P (p >>= Pure.pure) (m >>= g) S := h.bind fun a b s t ht => by
    rcases hrun : g b t with ⟨e | d, t'⟩
    · exact ((hg a b s t ht).2 e t' hrun).elim
    · rw [Computes, hrun]
      exact (hg a b s t ht).1 d t' hrun
  rwa [bind_pure] at hbind

/-- A call whose failure is taken in, with work on the buffers behind it. -/
theorem attempt {p : LevelProg α} {g : α → ScratchProg γ} {F : α → Prop} {S : α → γ → GraphContext → Prop}
    (h : Triple (Stored c) p (fun a s => Stored c s ∧ F a) (Stored c)) (hg : ∀ a, F a → Local c P (g a) (S a)) :
    Matches c P (Prog.attempt p) (Prog.attempt (Scratch.lift p >>= g)) fun r r' x =>
      (∃ e, r = .error e ∧ r' = .error e ∧ P x) ∨ ∃ a d, r = .ok a ∧ r' = .ok d ∧ F a ∧ S a d x := by
  rintro s t ⟨rfl, hsized, hinside, hasc, hstored, hP⟩
  have hs := h _ hstored
  rcases hrun : p t.toLevelState with ⟨e | a, s'⟩
  · have hlift : (Scratch.lift p >>= g) t = (.error e, { t with toLevelState := s' }) := by
      rw [bind_apply, Scratch.lift, hrun]
    rw [Computes, attempt_apply, attempt_apply, hrun, hlift]
    exact ⟨rfl, hsized, hinside, hasc, hs.2 e s' hrun, .inl ⟨e, rfl, rfl, hP⟩⟩
  · obtain ⟨hs', hF⟩ := hs.1 a s' hrun
    have hlift : (Scratch.lift p >>= g) t = g a { t with toLevelState := s' } := by
      rw [bind_apply, Scratch.lift, hrun]
    rw [Computes, attempt_apply, attempt_apply, hrun, hlift]
    have hwork := hg a hF s' { t with toLevelState := s' } ⟨rfl, hsized, hinside, hasc, hs', hP⟩
    rcases hd : g a { t with toLevelState := s' } with ⟨e | d, t'⟩
    · exact (hwork.2 e t' hd).elim
    · exact (hwork.1 d t' hd).mono (.inr ⟨a, d, rfl, rfl, hF, (hwork.1 d t' hd).holds⟩)

/-- What comes of the attempt, and what then. -/
theorem after_attempt {F : α → Prop} {S : α → γ → GraphContext → Prop} {p : LevelProg α'} {m : ScratchProg β'}
    {r : Except StorageError α} {r' : Except StorageError γ}
    (herr : ∀ e, r = .error e → r' = .error e → Matches c P p m R)
    (hok : ∀ a d, r = .ok a → r' = .ok d → F a → Matches c (S a d) p m R) :
    Matches c (fun x => (∃ e, r = .error e ∧ r' = .error e ∧ P x) ∨ ∃ a d, r = .ok a ∧ r' = .ok d ∧ F a ∧ S a d x)
      p m R := by
  intro s t ht
  rcases ht.holds with ⟨e, hr, hr', hP⟩ | ⟨a, d, hr, hr', hF, hS⟩
  · exact herr e hr hr' s t (ht.mono hP)
  · exact hok a d hr hr' hF s t (ht.mono hS)

/-- A walk through a list against one through its indexes. -/
theorem foldlM_range {xs : List γ} {f : α → γ → LevelProg α} {g : β → ℕ → ScratchProg β}
    {I : ℕ → α → β → GraphContext → Prop}
    (h : ∀ i x, xs[i]? = some x → ∀ a b, Matches c (I i a b) (f a x) (g b i) (I (i + 1))) (a : α) (b : β) :
    Matches c (I 0 a b) (xs.foldlM f a) ((List.range xs.length).foldlM g b) (I xs.length) := fun _ _ ht =>
  Computes.foldlM_range (I := fun i a b => Runs c (I i a b)) (fun i x hx a b _ _ h' => h i x hx a b _ _ h') ht

/-- A walk through one list on both sides; `I` speaks of the part still to go. -/
theorem foldlM {f : α → γ → LevelProg α} {g : β → γ → ScratchProg β} {I : List γ → α → β → GraphContext → Prop}
    (h : ∀ x rest a b, Matches c (I (x :: rest) a b) (f a x) (g b x) (I rest)) :
    ∀ {xs : List γ} {a : α} {b : β}, Matches c (I xs a b) (xs.foldlM f a) (xs.foldlM g b) (I [])
  | [], _, _ => Matches.pure fun _ hx => hx
  | x :: xs, a, b => by
    rw [List.foldlM_cons, List.foldlM_cons]
    exact (h x xs a b).bind fun _ _ => foldlM h

theorem forM {f : γ → LevelProg Unit} {g : γ → ScratchProg Unit} {F : GraphContext → Prop} :
    ∀ {xs : List γ}, (∀ x ∈ xs, Matches c F (f x) (g x) fun _ _ => F) →
      Matches c F (xs.forM f) (xs.forM g) fun _ _ => F
  | [], _ => Matches.pure fun _ hx => hx
  | x :: _, h => (h x List.mem_cons_self).bind fun _ _ => forM fun y hy => h y (List.mem_cons_of_mem _ hy)

theorem forM_range {xs : List γ} {f : γ → LevelProg Unit} {g : ℕ → ScratchProg Unit} {F : GraphContext → Prop}
    (h : ∀ i x, xs[i]? = some x → Matches c F (f x) (g i) fun _ _ => F) :
    Matches c F (xs.forM f) ((List.range xs.length).forM g) fun _ _ => F := fun _ _ ht =>
  Computes.forM_range (I := fun _ => Runs c F) (fun i x hx _ _ h' => h i x hx _ _ h') ht

theorem lift {m : LevelProg α} {F : α → Prop}
    (h : Triple (Stored c) m (fun a s => Stored c s ∧ F a) (Stored c)) :
    Matches c P m (lift m) fun a b x => (a = b ∧ F a) ∧ P x := by
  rintro s t ⟨rfl, hsized, hinside, hasc, hstored, hP⟩
  have hs := h _ hstored
  unfold Computes Scratch.lift
  rcases hrun : m t.toLevelState with ⟨e | a, s'⟩
  · exact ⟨rfl, rfl, hsized, hinside, hasc, hs.2 e s' hrun, trivial⟩
  · obtain ⟨hs', hF⟩ := hs.1 a s' hrun
    exact ⟨rfl, hsized, hinside, hasc, hs', ⟨rfl, hF⟩, hP⟩

end Matches

/-! ### The buffers -/

section Buffers

variable {b : Buffer α} {i n : ℕ} {v : α}

theorem access_local (h : ∀ x, Sized c.M x → P x → i < n) : Local c P (access i n) fun _ => P := fun _ =>
  Triple.modify fun _ ht => { ht with
    inside := List.forall_mem_cons.mpr ⟨h _ ht.sized ht.holds, ht.inside⟩ }

theorem read_local [Inhabited α] (h : ∀ x, Sized c.M x → P x → i < (b.get x).length) :
    Local c P (read b i) fun a x => (b.get x)[i]? = some a ∧ P x := by
  intro s t ht
  have hlt := h _ ht.sized ht.holds
  refine ⟨fun a t' hrun => ?_, fun e t' hrun => by cases (Prod.mk.inj hrun).1⟩
  obtain ⟨ha, rfl⟩ := Prod.mk.inj hrun
  cases ha
  refine { ht with inside := List.forall_mem_cons.mpr ⟨hlt, ht.inside⟩, holds := ⟨?_, ht.holds⟩ }
  rw [List.getD_eq_getElem?_getD, List.getElem?_eq_getElem hlt]
  rfl

theorem write_local {Q : GraphContext → Prop}
    (h : ∀ x, Sized c.M x → P x → i < (b.get x).length ∧ Q (b.set ((b.get x).set i v) x)) :
    Local c P (write b i v) fun _ => Q := by
  intro s t ht
  obtain ⟨hlt, hQ⟩ := h _ ht.sized ht.holds
  refine ⟨fun a t' hrun => ?_, fun e t' hrun => by cases (Prod.mk.inj hrun).1⟩
  obtain ⟨-, rfl⟩ := Prod.mk.inj hrun
  exact ⟨ht.same, (b.sizes_set _ _ List.length_set).trans ht.sized,
    List.forall_mem_cons.mpr ⟨hlt, ht.inside⟩, ht.ascending, ht.stored, hQ⟩

theorem writeBytes_local {b : Buffer (BitVec 8)} {k : ℕ} {d : List (BitVec 8)} {Q : GraphContext → Prop}
    (hd : 0 < d.length) (h : ∀ x, Sized c.M x → P x → k + d.length ≤ (b.get x).length ∧
      Q (b.set (Bytes.splice (b.get x) k d) x)) : Local c P (writeBytes b k d) fun _ => Q := by
  intro s t ht
  obtain ⟨hlt, hQ⟩ := h _ ht.sized ht.holds
  refine ⟨fun a t' hrun => ?_, fun e t' hrun => by cases (Prod.mk.inj hrun).1⟩
  obtain ⟨-, rfl⟩ := Prod.mk.inj hrun
  exact ⟨ht.same, (b.sizes_set _ _ (Bytes.length_splice hlt)).trans ht.sized,
    List.forall_mem_cons.mpr ⟨by dsimp only; omega, ht.inside⟩, ht.ascending, ht.stored, hQ⟩

theorem first_local (h : ∀ x, Sized c.M x → P x → n ≤ (b.get x).length) :
    Local c P (first b n) fun l x => l = (b.get x).take n ∧ P x := by
  intro s t ht
  have hle := h _ ht.sized ht.holds
  refine ⟨fun a t' hrun => ?_, fun e t' hrun => by cases (Prod.mk.inj hrun).1⟩
  obtain ⟨ha, rfl⟩ := Prod.mk.inj hrun
  cases ha
  exact { ht with
    inside := List.forall_mem_cons.mpr ⟨Nat.lt_succ_of_le hle, ht.inside⟩
    holds := ⟨rfl, ht.holds⟩ }

theorem fill_local {b : Buffer (Option γ)} {xs : List (Option γ)} {n : ℕ} (hn : xs.length = n)
    (hsize : ∀ x, Sized c.M x → n ≤ (b.get x).length) (hP : ∀ x l, P x → P (b.set l x)) :
    Local c P ((List.range n).forM fun slot => write b slot (xs[slot]?).join) fun _ x => xs <+: b.get x ∧ P x := by
  have hloop : Local c (fun x => xs.take 0 <+: b.get x ∧ P x)
      ((List.range n).forM fun slot => write b slot (xs[slot]?).join) fun _ x => xs.take n <+: b.get x ∧ P x := by
    intro s
    refine Triple.forM_range (I := fun i => Runs c (fun x => xs.take i <+: b.get x ∧ P x) s) fun i hi => ?_
    refine write_local (fun x hx ⟨hpre, hPx⟩ => ?_) s
    have hlt : i < (b.get x).length := hi.trans_le (hsize x hx)
    have hi' : i < xs.length := hn ▸ hi
    have hlen : (xs.take i).length = i := by
      rw [List.length_take]
      omega
    refine ⟨hlt, ?_, hP _ _ hPx⟩
    have hset : xs.take i ++ [(xs[i]?).join] <+: (b.get x).set (xs.take i).length (xs[i]?).join :=
      prefix_set hpre (by rw [hlen]; exact hlt)
    rw [hlen] at hset
    rw [b.get_set, List.take_succ_eq_append_getElem hi']
    rwa [List.getElem?_eq_getElem hi'] at hset ⊢
  refine hloop.conseq (fun x hx => ⟨by rw [List.take_zero]; exact List.nil_prefix, hx⟩) fun _ x hx => ?_
  rwa [← hn, List.take_length] at hx

/-- A read of the list that a buffer holds. -/
theorem readList_local [Inhabited α] {xs : List α} {o : α} (ho : xs[i]? = some o) (hP : ∀ x, P x → xs <+: b.get x) :
    Local c P (read b i) fun a x => a = o ∧ P x := by
  have hget (x : GraphContext) (hx : P x) : (b.get x)[i]? = some o := prefix_getElem? (hP x hx) ho
  exact (read_local fun x _ hx => (List.getElem?_eq_some_iff.mp (hget x hx)).1).conseq (fun _ h => h)
    fun a x hx => ⟨Option.some.inj (hx.1.symm.trans (hget x hx.2)), hx.2⟩

theorem findFrom_local {b : Buffer (Option γ)} {xs : List (Option γ)} {p : Option γ → Bool}
    (hP : ∀ x, P x → xs <+: b.get x) : ∀ {n i : ℕ}, i + n = xs.length →
    Local c P (findFrom b p n i) fun r x => r = ((xs.drop i).findIdx? p).map (· + i) ∧ P x
  | 0, i, hi => by
    rw [List.drop_of_length_le (by omega)]
    exact Local.pure fun x hx => ⟨rfl, hx⟩
  | n + 1, i, hi => by
    have hlt : i < xs.length := by omega
    have hget (x : GraphContext) (hx : P x) : (b.get x)[i]? = some xs[i] :=
      prefix_getElem? (hP x hx) (List.getElem?_eq_getElem hlt)
    rw [findFrom]
    refine (read_local fun x _ hx => (List.getElem?_eq_some_iff.mp (hget x hx)).1).bind fun v => ?_
    refine Local.of_fact (A := v = xs[i]) (fun x hx => Option.some.inj (hx.1.symm.trans (hget x hx.2))) ?_
    rintro rfl
    rw [List.drop_eq_getElem_cons hlt, List.findIdx?_cons]
    split
    · exact Local.pure fun x hx => ⟨by simp, hx.2⟩
    · refine ((findFrom_local hP (n := n) (i := i + 1) (by omega)).conseq (fun x hx => hx.2)) fun r x hx => ⟨?_, hx.2⟩
      rw [hx.1, Option.map_map]
      congr 1
      funext k
      simp only [Function.comp_apply]
      omega

end Buffers

/-! ### The sizes -/

section Sizes

variable {x : GraphContext}

theorem Sized.lengths (h : Sized c.M x) :
    x.neighbourBuf.length = (⟨0, c.M⟩ : LevelLayout).entryLen ∧
      x.overflowBuf.length = (⟨0, c.M⟩ : LevelLayout).overflowLen ∧ x.updateSlots.length = 2 * c.M ∧
      x.linkSlots.length = 2 * c.M ∧ x.chunkIds.length = maxUpdateChunks c.M ∧ x.nodeBuf1.length = 2 * c.M ∧
      x.nodeBuf2.length = 2 * c.M ∧ x.incomingBuf1.length = 2 * c.M ∧ x.incomingBuf2.length = 2 * c.M := by
  simpa [Sized, GraphContext.sizes, makeGraphContext, LevelLayout.maxNeighbours, LevelStore.maxNeighbours] using h

theorem maxNeighbours_le : c.maxNeighbours ≤ 2 * c.M := by
  unfold LevelCtx.maxNeighbours LevelStore.maxNeighbours
  split <;> omega

theorem overflowCapacity_le : c.overflowCapacity ≤ 2 * c.M := by
  have : c.overflowCapacity ≤ c.M := Nat.min_le_right _ _
  omega

/-- The record of a level is no longer than one of level 0. -/
theorem entryLen_le (h2 : 2 ≤ c.M) : c.layout.entryLen ≤ (⟨0, c.M⟩ : LevelLayout).entryLen := by
  have hle := maxNeighbours_le (c := c)
  have h0 : (⟨0, c.M⟩ : LevelLayout).maxNeighbours = 2 * c.M := rfl
  unfold LevelLayout.entryLen LevelLayout.hasLower
  rw [h0]
  change _ + c.maxNeighbours * 12 + 6 ≤ _
  by_cases hl : c.level = 0
  · simp only [LevelCtx.layout, hl, Nat.lt_irrefl, decide_false]
    simp
    omega
  · have hM : c.maxNeighbours = c.M := if_neg hl
    rw [hM]
    simp only [LevelCtx.layout, Nat.pos_of_ne_zero hl, decide_true, Nat.lt_irrefl, decide_false]
    simp
    omega

theorem maxUpdateChunks_eq (hM : c.M ≤ 128) : maxUpdateChunks c.M = 4 * c.M + 2 := by
  have hM' : (⟨0, c.M⟩ : LevelLayout).M ≤ 128 := hM
  have h0 : (⟨0, c.M⟩ : LevelLayout).maxNeighbours = 2 * c.M := rfl
  have hb : (⟨0, c.M⟩ : LevelLayout).neighboursBaseChunk = 1 := rfl
  rw [maxUpdateChunks, LevelLayout.neighbourOverflowChunk_eq hM', h0, hb]
  omega

end Sizes

/-! ### The storage calls -/

section Calls

open LevelProg

variable {nid : NID}

theorem Stored.load : Triple (Stored c) load (fun _ => Stored c) (Stored c) := by
  refine fun s hs => ⟨fun a s' hrun => ?_, fun e s' hrun => ?_⟩
  all_goals
    unfold LevelProg.load at hrun
    split at hrun
    all_goals
      obtain ⟨-, rfl⟩ := Prod.mk.inj hrun
      exact ⟨hs.slots, hs.cells, hs.refs⟩

/-- A list of nodes as storage has it. -/
def StoredList (c : LevelCtx) (xs : List (Option Node)) : Prop :=
  xs.length = c.maxNeighbours ∧ ∀ o ∈ xs, ∀ n ∈ o, n.Fits

theorem Stored.fetch : Triple (Stored c) (LevelProg.fetch nid) (fun e s => Stored c s ∧ StoredList c e.neighbours)
    (Stored c) := by
  refine Stored.load.bind fun _ => Triple.get.bind fun t => ?_
  refine Triple.ofOption (fun e he s hs => ?_) fun s hs => hs.2
  obtain ⟨rfl, hs⟩ := hs
  obtain ⟨r, hr, rfl⟩ := Option.map_eq_some_iff.mp he
  exact ⟨hs, hs.slots _ r hr⟩

theorem Stored.fetchOverflow : Triple (Stored c) (LevelProg.fetchOverflow nid)
    (fun e s => Stored c s ∧ e.incoming.length = c.overflowCapacity) (Stored c) := by
  refine Stored.load.bind fun _ => Triple.get.bind fun t => ?_
  refine Triple.ofOption (fun e he s hs => ?_) fun s hs => hs.2
  obtain ⟨rfl, hs⟩ := hs
  obtain ⟨r, hr, rfl⟩ := Option.map_eq_some_iff.mp he
  exact ⟨hs, hs.cells _ r hr⟩

theorem Stored.update {f : NeighbourEntry → NeighbourEntry}
    (hf : ∀ e, StoredList c e.neighbours → StoredList c (f e).neighbours) :
    Triple (Stored c) (update nid f) (fun _ s => Stored c s ∧ True) (Stored c) := by
  refine Stored.load.bind fun _ => Triple.get.bind fun t => ?_
  refine Triple.bind (Q := fun r s => Stored c s ∧ s.nodes.lookup nid.ref = some r)
    (Triple.ofOption (fun r hr s hs => ⟨hs.2, hs.1 ▸ hr⟩) fun s hs => hs.2) fun r => Triple.modify fun s hs => ?_
  obtain ⟨hs, hr⟩ := hs
  refine ⟨⟨fun a q hq => ?_, hs.cells, hs.refs⟩, trivial⟩
  replace hq : (s.nodes.insert nid.ref { r with entry := f r.entry }).lookup a = some q := hq
  by_cases ha : a = nid.ref
  · rw [ha, AList.lookup_insert] at hq
    cases hq
    exact hf _ (hs.slots _ r hr)
  · rw [AList.lookup_insert_ne ha] at hq
    exact hs.slots a q hq

theorem Stored.updateOverflow {f : OverflowEntry → OverflowEntry}
    (hf : ∀ e, (f e).incoming.length = e.incoming.length) :
    Triple (Stored c) (updateOverflow nid f) (fun _ s => Stored c s ∧ True) (Stored c) := by
  refine Stored.load.bind fun _ => Triple.get.bind fun t => ?_
  refine Triple.bind (Q := fun q s => Stored c s ∧ s.overflows.lookup nid.ref = some q)
    (Triple.ofOption (fun r hr s hs => ⟨hs.2, hs.1 ▸ hr⟩) fun s hs => hs.2) fun r => Triple.modify fun s hs => ?_
  obtain ⟨hs, hr⟩ := hs
  refine ⟨⟨hs.slots, fun o q hq => ?_, hs.refs⟩, trivial⟩
  replace hq : (s.overflows.insert nid.ref { r with entry := f r.entry }).lookup o = some q := hq
  by_cases ho : o = nid.ref
  · rw [ho, AList.lookup_insert] at hq
    cases hq
    exact (hf _).trans (hs.cells _ r hr)
  · rw [AList.lookup_insert_ne ho] at hq
    exact hs.cells o q hq

theorem Stored.place {e : OverflowEntry} : Triple (Stored c) (placeOverflow c e)
    (fun n s => Stored c s ∧ n.Fits) (Stored c) := by
  refine fun s hs => ⟨fun n s' hrun => ?_, fun e' s' hrun => ?_⟩
  · unfold placeOverflow at hrun
    split at hrun
    · cases (Prod.mk.inj hrun).1
    · rename_i r rs hrefs
      have hmem (q : ℕ) (hq : q ∈ r :: rs) : q < 2 ^ incomingBit := hs.refs q (hrefs ▸ hq)
      split at hrun
      · rename_i hfree
        obtain ⟨hn, rfl⟩ := Prod.mk.inj hrun
        cases hn
        refine ⟨⟨hs.slots, fun o q hq => ?_, fun q hq => hmem q (List.mem_cons_of_mem _ hq)⟩,
          Nat.pos_of_ne_zero hfree.1, hmem r List.mem_cons_self⟩
        replace hq : (s.overflows.insert r _).lookup o = some q := hq
        by_cases ho : o = r
        · rw [ho, AList.lookup_insert] at hq
          cases hq
          exact length_padSlots _ _
        · rw [AList.lookup_insert_ne ho] at hq
          exact hs.cells o q hq
      · cases (Prod.mk.inj hrun).1
  · unfold placeOverflow at hrun
    split at hrun
    · obtain ⟨-, rfl⟩ := Prod.mk.inj hrun
      exact hs
    · rename_i r rs hrefs
      split at hrun
      · cases (Prod.mk.inj hrun).1
      · obtain ⟨-, rfl⟩ := Prod.mk.inj hrun
        exact ⟨hs.slots, hs.cells, fun q hq => hs.refs q (hrefs ▸ List.mem_cons_of_mem _ hq)⟩

theorem Stored.insertOverflow {e : OverflowEntry} : Triple (Stored c) (LevelProg.insertOverflow c e)
    (fun n s => Stored c s ∧ n.Fits) (Stored c) := by
  have hserve {s : LevelState} (hs : Stored c s) (os : List Outcome) : Stored c { s with outcomes := os } :=
    ⟨hs.slots, hs.cells, hs.refs⟩
  refine fun s hs => ⟨fun n s' hrun => ?_, fun e' s' hrun => ?_⟩
  · unfold LevelProg.insertOverflow storageCall at hrun
    split at hrun
    · exact (Stored.place s hs).1 n s' hrun
    · exact (Stored.place _ (hserve hs _)).1 n s' hrun
    · cases (Prod.mk.inj hrun).1
    · cases (Prod.mk.inj hrun).1
  · unfold LevelProg.insertOverflow storageCall at hrun
    split at hrun
    · exact (Stored.place s hs).2 e' s' hrun
    · exact (Stored.place _ (hserve hs _)).2 e' s' hrun
    · obtain ⟨-, rfl⟩ := Prod.mk.inj hrun
      exact hserve hs _
    · rename_i e'' os _
      obtain ⟨-, rfl⟩ := Prod.mk.inj hrun
      rcases hwork : placeOverflow c e { s with outcomes := os } with ⟨e₃ | n, s''⟩
      · exact (Stored.place _ (hserve hs os)).2 e₃ s'' hwork
      · exact ((Stored.place _ (hserve hs os)).1 n s'' hwork).1

theorem Stored.chainFuel : Triple (Stored c) chainFuel (fun _ s => Stored c s ∧ True) (Stored c) :=
  Triple.get.bind fun _ => Triple.pure fun _ hs => ⟨hs.2, trivial⟩

end Calls

/-! ### Updates -/

section Updates

/-- The chunks `cs` stand in the bytes `b` and their indexes in the chunk ids. -/
def Chunked (b : Buffer (BitVec 8)) (cs : List (ℕ × ℕ)) (x : GraphContext) : Prop :=
  (∃ buf, buf.length = (b.get x).length ∧ b.get x = Serial.writeChunks cs buf) ∧ cs.map Prod.fst <+: x.chunkIds

/-- The buffers an update is written with. -/
structure ByteBuffer (c : LevelCtx) (b : Buffer (BitVec 8)) (len : ℕ) : Prop where
  get_ids : ∀ x l, b.get { x with chunkIds := l } = b.get x
  ids_set : ∀ x l, (b.set l x).chunkIds = x.chunkIds
  room : ∀ x, Sized c.M x → len ≤ (b.get x).length

theorem byteBuffer_neighbour (h2 : 2 ≤ c.M) : ByteBuffer c Buffer.neighbourBuf c.layout.entryLen :=
  ⟨fun _ _ => rfl, fun _ _ => rfl, fun _ hx => hx.lengths.1 ▸ entryLen_le h2⟩

theorem byteBuffer_overflow : ByteBuffer c Buffer.overflowBuf c.layout.overflowLen :=
  ⟨fun _ _ => rfl, fun _ _ => rfl, fun _ hx => hx.lengths.2.1.ge⟩

/-- What an update writes with does not matter to `F`. -/
def Writes (b : Buffer (BitVec 8)) (F : GraphContext → Prop) : Prop :=
  (∀ x l, F x → F (b.set l x)) ∧ ∀ x l, F x → F { x with chunkIds := l }

variable {b : Buffer (BitVec 8)} {len : ℕ} {cs : List (ℕ × ℕ)} {F : GraphContext → Prop} {nid : NID}

theorem chunked_nil (x : GraphContext) : Chunked b [] x := ⟨⟨b.get x, rfl, rfl⟩, List.nil_prefix⟩

theorem writeChunk_local (hb : ByteBuffer c b len) (hF : Writes b F) {idx v : ℕ}
    (hidx : idx * Serial.chunkSize + Serial.chunkSize ≤ len) (hids : cs.length < maxUpdateChunks c.M) :
    Local c (fun x => Chunked b cs x ∧ F x) (writeChunk b cs.length idx v) fun n x =>
      n = (cs ++ [(idx, v)]).length ∧ Chunked b (cs ++ [(idx, v)]) x ∧ F x := by
  have hlen : (Serial.writeId48 v).length = Serial.chunkSize := Serial.length_writeId48 v
  have hbytes : Local c (fun x => Chunked b cs x ∧ F x)
      (writeBytes b (idx * Serial.chunkSize) (Serial.writeId48 v)) fun _ x =>
        (∃ buf, buf.length = (b.get x).length ∧ b.get x = Serial.writeChunks (cs ++ [(idx, v)]) buf) ∧
          cs.map Prod.fst <+: x.chunkIds ∧ F x := by
    refine writeBytes_local (by rw [hlen]; decide) fun x hx ⟨⟨⟨buf, hbuf, hget⟩, hpre⟩, hFx⟩ => ?_
    have hroom : idx * Serial.chunkSize + (Serial.writeId48 v).length ≤ (b.get x).length := by
      rw [hlen]
      exact hidx.trans (hb.room x hx)
    refine ⟨hroom, ⟨buf, ?_, ?_⟩, ?_, ?_⟩
    · rw [b.get_set, Bytes.length_splice hroom, hbuf]
    · rw [b.get_set, hget, Serial.writeChunks, Serial.writeChunks, List.foldl_append]
      rfl
    · rwa [hb.ids_set]
    · exact hF.1 x _ hFx
  refine hbytes.bind fun _ => Local.bind (write_local (Q := fun x => Chunked b (cs ++ [(idx, v)]) x ∧ F x)
    fun x hx ⟨⟨buf, hbuf, hget⟩, hpre, hFx⟩ => ?_) fun _ => Local.pure fun x hx => ⟨by simp, hx⟩
  have hroom : cs.length < x.chunkIds.length := hx.lengths.2.2.2.2.1 ▸ hids
  refine ⟨hroom, ⟨⟨buf, ?_, ?_⟩, ?_⟩, ?_⟩
  · exact hbuf.trans (congrArg List.length (hb.get_ids x _).symm)
  · exact (hb.get_ids x _).trans hget
  · have hset : cs.map Prod.fst ++ [idx] <+: x.chunkIds.set (cs.map Prod.fst).length idx :=
      prefix_set hpre (by rwa [List.length_map])
    rw [List.length_map] at hset
    rw [List.map_append]
    exact hset
  · exact hF.2 x _ hFx

theorem writeFirst_local (hM : c.M ≤ 128) (hb : ByteBuffer c b len) (hF : Writes b F) {idx v : ℕ}
    (hidx : idx * Serial.chunkSize + Serial.chunkSize ≤ len) :
    Local c F (writeChunk b 0 idx v) fun n x => n = 1 ∧ Chunked b [(idx, v)] x ∧ F x := by
  have hids : ([] : List (ℕ × ℕ)).length < maxUpdateChunks c.M := by
    rw [maxUpdateChunks_eq hM]
    exact Nat.succ_pos _
  exact (writeChunk_local hb hF hidx hids).conseq (fun x hx => ⟨chunked_nil x, hx⟩) fun _ _ h => h

/-- The data of an update: its length is a record's, and every chunk reads as it was written. -/
theorem first_chunks (hb : ByteBuffer c b len) (hsorted : cs.Pairwise (·.1 < ·.1))
    (hin : ∀ w ∈ cs, w.1 * Serial.chunkSize + Serial.chunkSize ≤ len) (hsmall : ∀ w ∈ cs, w.2 < 2 ^ 48) :
    Local c (fun x => Chunked b cs x ∧ F x) (first b len) fun data x =>
      (∀ k ∈ cs, Serial.readChunk data k.1 = k.2) ∧ cs.map Prod.fst <+: x.chunkIds ∧ F x := by
  refine (first_local fun x hx _ => hb.room x hx).sized.conseq (fun _ h => h) ?_
  rintro _ x ⟨hx, rfl, ⟨⟨buf, hbuf, hget⟩, hpre⟩, hFx⟩
  have hroom := hb.room x hx
  have hin' : ∀ w ∈ cs, w.1 * Serial.chunkSize + Serial.chunkSize ≤ buf.length := fun w hw =>
    (hin w hw).trans (hbuf ▸ hroom)
  refine ⟨fun k hk => Serial.readChunk_of_chunk (hsmall k hk) ?_, hpre, hFx⟩
  rw [Bytes.chunk_take (hin k hk), hget]
  exact Serial.chunk_writeChunks hsorted hin' k hk

/-- The length of what an update names. -/
theorem take_ids {x : GraphContext} (h : cs.map Prod.fst <+: x.chunkIds) :
    x.chunkIds.take cs.length = cs.map Prod.fst := by
  obtain ⟨rest, hrest⟩ := h
  rw [← hrest, List.take_left' (List.length_map _)]

theorem ids_length_le (hM : c.M ≤ 128) {n k : ℕ} {l : List ℕ} (hl : Below n l) (hn : n ≤ 2 * c.M)
    (hk : k ≤ 2 * l.length) : k < maxUpdateChunks c.M := by
  have := hl.length_le
  rw [maxUpdateChunks_eq hM]
  omega

theorem storeEntry_matches (h2 : 2 ≤ c.M) (hM : c.M ≤ 128)
    (hsorted : cs.Pairwise (·.1 < ·.1)) (hin : ∀ w ∈ cs, w.1 * Serial.chunkSize + Serial.chunkSize ≤ c.layout.entryLen)
    (hsmall : ∀ w ∈ cs, w.2 < 2 ^ 48) (hids : cs.length ≤ maxUpdateChunks c.M) {f : NeighbourEntry → NeighbourEntry}
    (hf : ∀ data, (∀ k ∈ cs, Serial.readChunk data k.1 = k.2) → ∀ e : NeighbourEntry,
      e.overwrite c.layout (cs.map Prod.fst) data = f e)
    (hstored : ∀ e : NeighbourEntry, StoredList c e.neighbours → StoredList c (f e).neighbours) :
    Matches c (fun x => Chunked Buffer.neighbourBuf cs x ∧ F x) (LevelProg.update nid f)
      (storeEntry c nid cs.length) fun _ _ => F := by
  have hlen : (c.layout.neighbourOverflowChunk + 1) * Serial.chunkSize = c.layout.entryLen := by
    rw [LevelLayout.neighbourOverflowChunk_eq (L := c.layout) hM, LevelLayout.entryLen_eq]
  rw [storeEntry, hlen]
  refine Matches.right (first_chunks (byteBuffer_neighbour h2) hsorted hin hsmall) fun data => ?_
  refine Matches.of_fact (fun x hx => hx.1) fun hdata => ?_
  refine Matches.right (first_local fun x hx _ => hids.trans hx.lengths.2.2.2.2.1.ge) fun ids => ?_
  refine Matches.of_fact (A := ids = cs.map Prod.fst) (fun x hx => hx.1.trans (take_ids hx.2.2.1)) ?_
  rintro rfl
  have hfun : (fun e : NeighbourEntry => e.overwrite c.layout (cs.map Prod.fst) data) = f := funext (hf data hdata)
  rw [hfun]
  exact (Matches.lift (Stored.update hstored)).conseq (fun _ h => h) fun _ _ _ h => h.2.2.2.2

theorem storeOverflow_matches
    (hsorted : cs.Pairwise (·.1 < ·.1))
    (hin : ∀ w ∈ cs, w.1 * Serial.chunkSize + Serial.chunkSize ≤ c.layout.overflowLen)
    (hsmall : ∀ w ∈ cs, w.2 < 2 ^ 48) (hids : cs.length ≤ maxUpdateChunks c.M) {f : OverflowEntry → OverflowEntry}
    (hf : ∀ data, (∀ k ∈ cs, Serial.readChunk data k.1 = k.2) → ∀ e : OverflowEntry,
      e.overwrite c.layout (cs.map Prod.fst) data = f e)
    (hstored : ∀ e : OverflowEntry, (f e).incoming.length = e.incoming.length) :
    Matches c (fun x => Chunked Buffer.overflowBuf cs x ∧ F x) (LevelProg.updateOverflow nid f)
      (storeOverflow c nid cs.length) fun _ _ => F := by
  have hlen : (c.layout.overflowChunk + 1) * Serial.chunkSize = c.layout.overflowLen := by
    rw [LevelLayout.overflowChunk_eq, LevelLayout.overflowLen_eq]
  rw [storeOverflow, hlen]
  refine Matches.right (first_chunks byteBuffer_overflow hsorted hin hsmall) fun data => ?_
  refine Matches.of_fact (fun x hx => hx.1) fun hdata => ?_
  refine Matches.right (first_local fun x hx _ => hids.trans hx.lengths.2.2.2.2.1.ge) fun ids => ?_
  refine Matches.of_fact (A := ids = cs.map Prod.fst) (fun x hx => hx.1.trans (take_ids hx.2.2.1)) ?_
  rintro rfl
  have hfun : (fun e : OverflowEntry => e.overwrite c.layout (cs.map Prod.fst) data) = f := funext (hf data hdata)
  rw [hfun]
  exact (Matches.lift (Stored.updateOverflow hstored)).conseq (fun _ h => h) fun _ _ _ h => h.2.2.2.2

/-- The list that a span is. -/
def Span.Holds (sp : Span α) (vs : List (Option α)) (x : GraphContext) : Prop :=
  match sp with
  | .buffer b n => n = vs.length ∧ vs <+: b.get x
  | .array xs => xs = vs

theorem Span.size_eq {sp : Span α} {vs : List (Option α)} {x : GraphContext} (h : sp.Holds vs x) :
    sp.size = vs.length := by
  cases sp with
  | buffer b n => exact h.1
  | array xs => exact congrArg List.length h

theorem span_local {sp : Span α} {l : List (Option α)} {i : ℕ} {v : Option α} (hP : ∀ x, P x → sp.Holds l x)
    (hv : l[i]? = some v) : Local c P (sp.read i) fun a x => a = v ∧ P x := by
  cases sp with
  | array xs =>
    refine Local.pure fun x hx => ⟨?_, hx⟩
    have : xs = l := hP x hx
    rw [this, List.getD_eq_getElem?_getD, hv]
    rfl
  | buffer b n =>
    have hget (x : GraphContext) (hx : P x) : (b.get x)[i]? = some v := prefix_getElem? (hP x hx).2 hv
    exact (read_local fun x _ hx => (List.getElem?_eq_some_iff.mp (hget x hx)).1).conseq (fun _ h => h)
      fun a x hx => ⟨Option.some.inj (hx.1.symm.trans (hget x hx.2)), hx.2⟩

/-- The slot list of an update is in order. -/
theorem handSlots_local {slots : Buffer ℕ} {l : List ℕ} (hP : ∀ x, P x → l <+: slots.get x) (hl : l.Pairwise (· < ·)) :
    Local c P (handSlots slots l.length) fun _ => P := by
  refine (first_local fun x _ hx => (hP x hx).length_le).bind fun l' s => Triple.modify fun t ht => ?_
  have hl' : l' = l := by
    obtain ⟨rest, hrest⟩ := hP _ ht.holds.2
    rw [ht.holds.1, ← hrest, List.take_left]
  exact { ht with
    ascending := List.forall_mem_cons.mpr ⟨hl' ▸ hl, ht.ascending⟩
    holds := ht.holds.2 }

theorem storedList_write {ws : List (ℕ × Option Node)} (hws : ∀ w ∈ ws, ∀ v ∈ w.2, v.Fits) {xs : List (Option Node)}
    (h : StoredList c xs) : StoredList c (writeSlots ws xs) := by
  refine ⟨(length_writeSlots ws xs).trans h.1, fun o ho => ?_⟩
  rcases mem_writeSlots ho with ho | ⟨w, hw, rfl⟩
  · exact h.2 o ho
  · exact hws w hw

theorem slotIndex_eq {slot : ℕ} (h : slot < 2 ^ 16) : slotIndex slot = slot := Nat.mod_eq_of_lt h

/-- The chunks of one slot. -/
theorem writeNode_local (h2 : 2 ≤ c.M) (hM : c.M ≤ 128) (hF : Writes Buffer.neighbourBuf F) {slot : ℕ}
    {o : Option Node} (hslot : slot < c.maxNeighbours) (hids : cs.length + 1 < maxUpdateChunks c.M) :
    Local c (fun x => Chunked Buffer.neighbourBuf cs x ∧ F x) (do
      let num ← writeChunk Buffer.neighbourBuf cs.length (c.layout.neighbourNidChunk slot) (Node.words o).nid
      writeChunk Buffer.neighbourBuf num (c.layout.neighbourVidChunk slot) (Node.words o).vid) fun num x =>
        num = (cs ++ nodeChunks c.layout [(slot, o)]).length ∧
          Chunked Buffer.neighbourBuf (cs ++ nodeChunks c.layout [(slot, o)]) x ∧ F x := by
  have hML : c.layout.M ≤ 128 := hM
  have hnid := LevelLayout.neighbourNidChunk_eq hML hslot
  have hvid := LevelLayout.neighbourVidChunk_eq hML hslot
  have hlen := LevelLayout.entryLen_eq (L := c.layout)
  have hmax : c.layout.maxNeighbours = c.maxNeighbours := rfl
  have hroom {k : ℕ} (hk : k ≤ c.layout.neighboursBaseChunk + 2 * slot + 1) :
      k * Serial.chunkSize + Serial.chunkSize ≤ c.layout.entryLen := by
    rw [hlen, ← Nat.succ_mul]
    exact Nat.mul_le_mul_right _ (by omega)
  refine (writeChunk_local (byteBuffer_neighbour h2) hF (hroom (by omega)) (by omega)).bind fun num =>
    Local.of_fact (fun x hx => hx.1) ?_
  rintro rfl
  have hsplit : cs ++ nodeChunks c.layout [(slot, o)] = cs ++ [(c.layout.neighbourNidChunk slot, (Node.words o).nid)] ++
      [(c.layout.neighbourVidChunk slot, (Node.words o).vid)] := by simp [nodeChunks]
  rw [hsplit]
  exact (writeChunk_local (byteBuffer_neighbour h2) hF (hroom (by omega)) (by simpa using hids)).conseq
    (fun x hx => hx.2) fun _ _ h => h

/-- **An update of slots of a node's list**, from a span and a slot buffer. -/
theorem updateNeighbours_matches (h2 : 2 ≤ c.M) (hM : c.M ≤ 128) {sp : Span Node} {slots : Buffer ℕ}
    {ws : List (ℕ × Option Node)} (hne : ws ≠ []) (hws : Writable c.maxNeighbours ws)
    (hsp : ∀ x, F x → sp.Holds (ws.map Prod.snd) x ∧ ws.map Prod.fst <+: slots.get x)
    (hF : Writes Buffer.neighbourBuf F) :
    Matches c F (IndexGraph.updateSlots nid ws) (updateNeighbours c nid sp slots) fun _ _ => F := by
  have hML : c.layout.M ≤ 128 := hM
  have hlist : (ws.map Prod.fst).length = ws.length := List.length_map _
  have hsnoc (i : ℕ) (w : ℕ × Option Node) (hw : ws[i]? = some w) :
      nodeChunks c.layout (ws.take (i + 1)) = nodeChunks c.layout (ws.take i) ++ nodeChunks c.layout [w] := by
    rw [List.take_add_one, hw, nodeChunks, List.flatMap_append]
    rfl
  have hlen (vs : List (ℕ × Option Node)) : (nodeChunks c.layout vs).length = 2 * vs.length := by
    rw [nodeChunks, List.length_flatMap]
    simp [Nat.mul_comm]
  have hargs := hws.args (L := c.layout)
  have hroom {k : ℕ} (hk : k ≤ 2 * ws.length) : k < maxUpdateChunks c.M :=
    ids_length_le hM hws.below maxNeighbours_le (hlist.symm ▸ hk)
  rw [IndexGraph.updateSlots, if_neg hne, updateNeighbours]
  refine Matches.of_fact (A := sp.size = ws.length) (fun x hx => ?_) fun hsize => ?_
  · rw [Span.size_eq (hsp x hx).1, List.length_map]
  rw [hsize]
  refine Matches.right (S := fun _ => F) ?_ fun _ => ?_
  · rw [← hlist]
    exact handSlots_local (fun x hx => (hsp x hx).2) hws.below.1
  -- the loop over the slots
  have hturn (i : ℕ) (hi : i < ws.length) (num : ℕ) :
      Local c (fun x => num = (nodeChunks c.layout (ws.take i)).length ∧
        Chunked Buffer.neighbourBuf (nodeChunks c.layout (ws.take i)) x ∧ F x) (do
          let slot ← read slots i
          let n ← sp.read i
          let num ← writeChunk Buffer.neighbourBuf num (c.layout.neighbourNidChunk slot) (Node.words n).nid
          writeChunk Buffer.neighbourBuf num (c.layout.neighbourVidChunk slot) (Node.words n).vid)
        fun num x => num = (nodeChunks c.layout (ws.take (i + 1))).length ∧
          Chunked Buffer.neighbourBuf (nodeChunks c.layout (ws.take (i + 1))) x ∧ F x := by
    obtain ⟨w, hw⟩ : ∃ w, ws[i]? = some w := ⟨ws[i], List.getElem?_eq_getElem hi⟩
    have hmem := List.mem_of_getElem? hw
    have hslot (x : GraphContext) (hx : F x) : (slots.get x)[i]? = some w.1 :=
      prefix_getElem? (hsp x hx).2 (by rw [List.getElem?_map, hw]; rfl)
    refine Local.of_fact (fun x hx => hx.1) ?_
    rintro rfl
    refine Local.bind (read_local fun x _ hx => (List.getElem?_eq_some_iff.mp (hslot x hx.2.2)).1) fun slot => ?_
    refine Local.of_fact (A := slot = w.1) (fun x hx => Option.some.inj (hx.1.symm.trans (hslot x hx.2.2.2))) ?_
    rintro rfl
    refine Local.bind (span_local (l := ws.map Prod.snd) (v := w.2) (fun x hx => (hsp x hx.2.2.2).1)
      (by rw [List.getElem?_map, hw]; rfl)) fun v => Local.of_fact (fun x hx => hx.1) ?_
    rintro rfl
    rw [hsnoc i w hw]
    refine (writeNode_local h2 hM hF (hws.below.2 _ (List.mem_map_of_mem hmem)) (hroom ?_)).conseq
      (fun x hx => ⟨hx.2.2.2.1, hx.2.2.2.2⟩) fun _ _ h => h
    rw [hlen, List.length_take]
    omega
  refine Matches.right ((Local.foldlM_range (I := fun i num x => num = (nodeChunks c.layout (ws.take i)).length ∧
    Chunked Buffer.neighbourBuf (nodeChunks c.layout (ws.take i)) x ∧ F x) hturn 0).conseq
    (fun x hx => ⟨rfl, chunked_nil x, hx⟩) fun _ _ h => h) fun num => Matches.of_fact (fun x hx => hx.1) ?_
  rw [List.take_length]
  rintro rfl
  refine (storeEntry_matches h2 hM ?_ ?_ ?_ (hroom (hlen ws).le).le (fun data hdata e => ?_)
    fun e he => storedList_write hws.fits he).conseq (fun x hx => hx.2) fun _ _ _ h => h
  · rw [nodeChunks_eq]
    exact Serial.entryChunks_sorted hML hargs
  · rw [nodeChunks_eq]
    exact Serial.entryChunks_inRange hML hargs
  · rw [nodeChunks_eq]
    exact Serial.entryChunks_small hargs
  · exact overwrite_nodeChunks hML (fun w hw => ⟨hws.below.2 _ (List.mem_map_of_mem hw), hws.fits w hw⟩) hdata e

/-- The update of a node's overflow field. -/
theorem updateHead_matches (h2 : 2 ≤ c.M) (hM : c.M ≤ 128) {n : NID} (hn : n.Fits)
    (hF : Writes Buffer.neighbourBuf F) :
    Matches c F (LevelProg.update nid fun e => { e with overflow := some n }) (updateHead c nid (some n)) fun _ _ => F := by
  have hML : c.layout.M ≤ 128 := hM
  have hroom : c.layout.neighbourOverflowChunk * Serial.chunkSize + Serial.chunkSize ≤ c.layout.entryLen := by
    rw [LevelLayout.entryLen_eq, LevelLayout.neighbourOverflowChunk_eq hML, ← Nat.succ_mul]
  have hids : 1 ≤ maxUpdateChunks c.M := Nat.le_add_left _ _
  refine Matches.right (writeFirst_local hM (byteBuffer_neighbour h2) hF hroom) fun num =>
    Matches.of_fact (fun x hx => hx.1) ?_
  rintro rfl
  refine (storeEntry_matches (f := fun e => { e with overflow := some n }) h2 hM (List.pairwise_singleton _ _) ?_ ?_
    hids (fun data hdata e => ?_) fun _ he => he).conseq (fun x hx => hx.2) fun _ _ _ h => h
  · simpa using hroom
  · simpa using hn.word_lt.trans (by norm_num)
  · have hread : Serial.readChunk data c.layout.neighbourOverflowChunk = NID.word (some n) := hdata _ List.mem_cons_self
    show e.setChunk c.layout c.layout.neighbourOverflowChunk (Serial.readChunk data c.layout.neighbourOverflowChunk) = _
    rw [hread, setChunk_overflow hML e fun m hm => by cases hm; exact hn]

/-- The update of an overflow record's overflow field. -/
theorem updateNext_matches (hM : c.M ≤ 128) {n : NID} (hn : n.Fits) (hF : Writes Buffer.overflowBuf F) :
    Matches c F (LevelProg.updateOverflow nid fun e => { e with overflow := some n }) (updateNext c nid (some n))
      fun _ _ => F := by
  have hroom : c.layout.overflowChunk * Serial.chunkSize + Serial.chunkSize ≤ c.layout.overflowLen := by
    rw [LevelLayout.overflowLen_eq, LevelLayout.overflowChunk_eq, ← Nat.succ_mul]
  have hids : 1 ≤ maxUpdateChunks c.M := Nat.le_add_left _ _
  refine Matches.right (writeFirst_local hM byteBuffer_overflow hF hroom) fun num =>
    Matches.of_fact (fun x hx => hx.1) ?_
  rintro rfl
  refine (storeOverflow_matches (f := fun e => { e with overflow := some n }) (List.pairwise_singleton _ _) ?_ ?_
    hids (fun data hdata e => ?_) fun _ => rfl).conseq (fun x hx => hx.2) fun _ _ _ h => h
  · simpa using hroom
  · simpa using hn.word_lt.trans (by norm_num)
  · have hread : Serial.readChunk data c.layout.overflowChunk = NID.word (some n) := hdata _ List.mem_cons_self
    show e.setChunk c.layout c.layout.overflowChunk (Serial.readChunk data c.layout.overflowChunk) = _
    rw [hread, setChunk_next e fun m hm => by cases hm; exact hn]

/-- **An update of slots of an overflow record**, from a span and a slot buffer. -/
theorem updateIncoming_matches (hM : c.M ≤ 128) {sp : Span NID} {slots : Buffer ℕ}
    {ws : List (ℕ × Option NID)} (hne : ws ≠ []) (hws : WritableIds c.overflowCapacity ws)
    (hsp : ∀ x, F x → sp.Holds (ws.map Prod.snd) x ∧ ws.map Prod.fst <+: slots.get x)
    (hF : Writes Buffer.overflowBuf F) :
    Matches c F (IndexGraph.updateIncoming nid ws) (updateIncoming c nid sp slots) fun _ _ => F := by
  have hlist : (ws.map Prod.fst).length = ws.length := List.length_map _
  have hlen (vs : List (ℕ × Option NID)) : (nidChunks vs).length = vs.length := List.length_map _
  have hargs := hws.args (L := c.layout)
  have hin : ∀ w ∈ nidChunks ws, w.1 * Serial.chunkSize + Serial.chunkSize ≤ c.layout.overflowLen := by
    rw [nidChunks_eq (L := c.layout)]
    exact Serial.overflowChunks_inRange hargs
  have hroom {k : ℕ} (hk : k ≤ 2 * ws.length) : k < maxUpdateChunks c.M :=
    ids_length_le hM hws.below overflowCapacity_le (hlist.symm ▸ hk)
  rw [IndexGraph.updateIncoming, if_neg hne, updateIncoming]
  refine Matches.of_fact (A := sp.size = ws.length) (fun x hx => ?_) fun hsize => ?_
  · rw [Span.size_eq (hsp x hx).1, List.length_map]
  rw [hsize]
  refine Matches.right (S := fun _ => F) ?_ fun _ => ?_
  · rw [← hlist]
    exact handSlots_local (fun x hx => (hsp x hx).2) hws.below.1
  -- the loop over the slots
  have hturn (i : ℕ) (hi : i < ws.length) (num : ℕ) :
      Local c (fun x => num = (nidChunks (ws.take i)).length ∧
        Chunked Buffer.overflowBuf (nidChunks (ws.take i)) x ∧ F x) (do
          let slot ← read slots i
          let n ← sp.read i
          writeChunk Buffer.overflowBuf num (LevelLayout.incomingChunk slot) (NID.word n))
        fun num x => num = (nidChunks (ws.take (i + 1))).length ∧
          Chunked Buffer.overflowBuf (nidChunks (ws.take (i + 1))) x ∧ F x := by
    obtain ⟨w, hw⟩ : ∃ w, ws[i]? = some w := ⟨ws[i], List.getElem?_eq_getElem hi⟩
    have hmem := List.mem_of_getElem? hw
    have hslot (x : GraphContext) (hx : F x) : (slots.get x)[i]? = some w.1 :=
      prefix_getElem? (hsp x hx).2 (by rw [List.getElem?_map, hw]; rfl)
    have hsnoc : nidChunks (ws.take (i + 1)) = nidChunks (ws.take i) ++ [(LevelLayout.incomingChunk w.1, NID.word w.2)] := by
      rw [List.take_add_one, hw, nidChunks, List.map_append]
      rfl
    refine Local.of_fact (fun x hx => hx.1) ?_
    rintro rfl
    refine Local.bind (read_local fun x _ hx => (List.getElem?_eq_some_iff.mp (hslot x hx.2.2)).1) fun slot => ?_
    refine Local.of_fact (A := slot = w.1) (fun x hx => Option.some.inj (hx.1.symm.trans (hslot x hx.2.2.2))) ?_
    rintro rfl
    refine Local.bind (span_local (l := ws.map Prod.snd) (v := w.2) (fun x hx => (hsp x hx.2.2.2).1)
      (by rw [List.getElem?_map, hw]; rfl)) fun v => Local.of_fact (fun x hx => hx.1) ?_
    rintro rfl
    rw [hsnoc]
    refine (writeChunk_local byteBuffer_overflow hF (hin _ (List.mem_map_of_mem hmem)) (hroom ?_)).conseq
      (fun x hx => ⟨hx.2.2.2.1, hx.2.2.2.2⟩) fun _ _ h => h
    rw [hlen, List.length_take]
    omega
  refine Matches.right ((Local.foldlM_range (I := fun i num x => num = (nidChunks (ws.take i)).length ∧
    Chunked Buffer.overflowBuf (nidChunks (ws.take i)) x ∧ F x) hturn 0).conseq
    (fun x hx => ⟨rfl, chunked_nil x, hx⟩) fun _ _ h => h) fun num => Matches.of_fact (fun x hx => hx.1) ?_
  rw [List.take_length]
  rintro rfl
  refine (storeOverflow_matches ?_ hin ?_ (hroom ?_).le (fun data hdata e => ?_)
    fun e => length_writeSlots _ _).conseq (fun x hx => hx.2) fun _ _ _ h => h
  · rw [nidChunks_eq (L := c.layout)]
    exact Serial.overflowChunks_sorted hargs
  · rw [nidChunks_eq (L := c.layout)]
    exact Serial.overflowChunks_small hargs
  · rw [hlen]
    omega
  · exact overwrite_nidChunks (L := c.layout)
      (fun w hw => ⟨hws.below.2 _ (List.mem_map_of_mem hw), hws.fits w hw⟩) hdata e

theorem padSlots_singleton {n : ℕ} (hn : 0 < n) (v : Option α) :
    padSlots n [v] = v :: List.replicate (n - 1) none := by
  rw [padSlots, List.take_of_length_le (show [v].length ≤ n from hn)]
  rfl

/-- A new overflow record, by way of the bytes. -/
theorem insertOverflow_matches (h2 : 2 ≤ c.M) {n : NID} (hn : n.Fits) (hF : Writes Buffer.overflowBuf F) :
    Matches c F (LevelProg.insertOverflow c ⟨[some n], none⟩) (insertOverflow c ⟨[some n], none⟩) fun a b x =>
      (a = b ∧ a.Fits) ∧ F x := by
  have hcap : 0 < c.overflowCapacity := lt_min (by decide) (by omega)
  set e : RawOverflow := ⟨[NID.word (some n)], NID.word none⟩ with he
  have hsmall : e.Small := ⟨fun w hw => by
    rw [List.mem_singleton.mp hw]
    exact hn.word_lt, by norm_num [he, NID.word, invalidId]⟩
  have hlen : (Serial.formatOverflow c.layout e).length = c.layout.overflowLen := Serial.length_formatOverflow
  have hpos : 0 < (Serial.formatOverflow c.layout e).length := by
    rw [hlen]
    exact Nat.succ_pos _
  have hwrite : Local c F (writeBytes Buffer.overflowBuf 0 (Serial.formatOverflow c.layout e)) fun _ x =>
      x.overflowBuf.take c.layout.overflowLen = Serial.formatOverflow c.layout e ∧ F x := by
    refine writeBytes_local hpos fun x hx hFx => ⟨?_, ?_, hF.1 x _ hFx⟩
    · rw [Nat.zero_add, hlen]
      exact byteBuffer_overflow.room x hx
    · show (Bytes.splice _ 0 _).take _ = _
      rw [Bytes.splice, List.take_zero, List.nil_append, ← hlen, List.take_left]
  refine Matches.right hwrite fun _ => Matches.right (first_local fun x hx _ => byteBuffer_overflow.room x hx)
    fun data => ?_
  refine Matches.of_fact (A := data = Serial.formatOverflow c.layout e) (fun x hx => hx.1.trans hx.2.1) ?_
  rintro rfl
  have hdata : OverflowEntry.ofData c.layout (Serial.formatOverflow c.layout e) =
      ⟨padSlots c.overflowCapacity [some n], none⟩ := by
    have hstored := Serial.storedOverflow_formatOverflow (L := c.layout) hsmall
    have hincoming := congrArg (fun r => r.incoming.map NID.ofWord) hstored
    have hoverflow : Serial.readChunk (Serial.formatOverflow c.layout e) c.layout.overflowChunk = NID.word none :=
      congrArg RawOverflow.overflow hstored
    have hslots : (OverflowEntry.ofData c.layout (Serial.formatOverflow c.layout e)).incoming =
        padSlots c.overflowCapacity [some n] := by
      rw [padSlots_singleton hcap]
      refine Eq.trans ?_ (hincoming.trans ?_)
      · simp [OverflowEntry.ofData, Serial.storedOverflow]
      · obtain ⟨k, hk⟩ : ∃ k, c.overflowCapacity = k + 1 := Nat.exists_eq_succ_of_ne_zero hcap.ne'
        have hk' : c.layout.overflowCapacity = k + 1 := hk
        have hword : NID.ofWord (NID.word (some n)) = some n := NID.ofWord_word fun m hm => by cases hm; exact hn
        have htail : ((List.range k).map fun i => NID.ofWord (([NID.word (some n)][i + 1]?).getD invalidId)) =
            List.replicate k none := by simp [NID.ofWord, List.map_const']
        rw [RawOverflow.padded, hk, hk', List.map_map, List.range_succ_eq_map, List.map_cons, List.map_map,
          Nat.add_sub_cancel, ← htail, ← hword]
        rfl
    rw [← hslots]
    show _ = OverflowEntry.mk _ none
    rw [OverflowEntry.ofData, hoverflow]
    rfl
  have hpad : padSlots c.overflowCapacity (padSlots c.overflowCapacity [some n]) = padSlots c.overflowCapacity [some n] := by
    have hfull := length_padSlots c.overflowCapacity [some n]
    rw [padSlots, hfull, Nat.sub_self, List.replicate_zero, List.append_nil, List.take_of_length_le hfull.le]
  have hinsert : LevelProg.insertOverflow c (.ofData c.layout (Serial.formatOverflow c.layout e)) =
      LevelProg.insertOverflow c ⟨[some n], none⟩ := by
    rw [hdata]
    unfold LevelProg.insertOverflow LevelProg.placeOverflow
    dsimp only
    rw [hpad]
  rw [hinsert]
  exact (Matches.lift Stored.insertOverflow).conseq (fun _ h => h) fun _ _ _ h => ⟨h.1, h.2.2.2⟩

end Updates

/-! ### Reading -/

section Reading

variable {nid : NID}

/-- What a fetch returns beside the list. -/
def header (e : NeighbourEntry) : Fetched := ⟨e.owner, e.overflow, e.neighbours.countP Option.isSome⟩

/-- The list of nodes that was read stands in the buffer. -/
theorem fill_nodes {b : Buffer (Option Node)} (hb : ∀ x, Sized c.M x → c.maxNeighbours ≤ (b.get x).length)
    (hP : ∀ x l, P x → P (b.set l x)) (e : NeighbourEntry) (he : StoredList c e.neighbours) :
    Local c P (do
      (List.range c.maxNeighbours).forM fun slot => write b slot (e.neighbours[slot]?).join
      pure ⟨e.owner, e.overflow, (e.neighbours.take c.maxNeighbours).countP Option.isSome⟩) fun h x =>
        h = header e ∧ e.neighbours <+: b.get x ∧ P x := by
  refine (fill_local he.1 hb hP).bind fun _ => Local.pure fun x hx => ⟨?_, hx⟩
  rw [header, ← he.1, List.take_length]

theorem fetch_matches {b : Buffer (Option Node)} (hb : ∀ x, Sized c.M x → c.maxNeighbours ≤ (b.get x).length)
    (hP : ∀ x l, P x → P (b.set l x)) :
    Matches c P (LevelProg.fetch nid) (fetch c b nid) fun e h x =>
      StoredList c e.neighbours ∧ h = header e ∧ e.neighbours <+: b.get x ∧ P x := by
  refine (Matches.lift Stored.fetch).trail fun e e' => Local.of_fact (fun x hx => hx.1) ?_
  rintro ⟨rfl, he⟩
  exact (fill_nodes hb hP e he).conseq (fun x hx => hx.2) fun h x hx => ⟨he, hx⟩

theorem attempt_fetch_matches {b : Buffer (Option Node)}
    (hb : ∀ x, Sized c.M x → c.maxNeighbours ≤ (b.get x).length) (hP : ∀ x l, P x → P (b.set l x)) :
    Matches c P (Prog.attempt (LevelProg.fetch nid)) (Prog.attempt (fetch c b nid)) fun r r' x =>
      (∃ e, r = .error e ∧ r' = .error e ∧ P x) ∨
        ∃ e h, r = .ok e ∧ r' = .ok h ∧ StoredList c e.neighbours ∧ h = header e ∧ e.neighbours <+: b.get x ∧ P x :=
  Matches.attempt Stored.fetch (fill_nodes hb hP)

theorem fetchOverflow_matches {b : Buffer (Option NID)}
    (hb : ∀ x, Sized c.M x → c.overflowCapacity ≤ (b.get x).length) (hP : ∀ x l, P x → P (b.set l x)) :
    Matches c P (LevelProg.fetchOverflow nid) (fetchOverflow c b nid) fun e next x =>
      e.incoming.length = c.overflowCapacity ∧ next = e.overflow ∧ e.incoming <+: b.get x ∧ P x := by
  refine (Matches.lift Stored.fetchOverflow).trail fun e e' => Local.of_fact (fun x hx => hx.1) ?_
  rintro ⟨rfl, he⟩
  exact ((fill_local he hb hP).bind fun _ => Local.pure fun x hx => ⟨he, rfl, hx⟩).conseq (fun x hx => hx.2)
    fun _ _ h => h

theorem nodeBuf1_room : ∀ x, Sized c.M x → c.maxNeighbours ≤ (Buffer.nodeBuf1.get x).length := fun _ hx =>
  maxNeighbours_le.trans hx.lengths.2.2.2.2.2.1.ge

theorem nodeBuf2_room : ∀ x, Sized c.M x → c.maxNeighbours ≤ (Buffer.nodeBuf2.get x).length := fun _ hx =>
  maxNeighbours_le.trans hx.lengths.2.2.2.2.2.2.1.ge

theorem incomingBuf1_room : ∀ x, Sized c.M x → c.overflowCapacity ≤ (Buffer.incomingBuf1.get x).length := fun _ hx =>
  overflowCapacity_le.trans hx.lengths.2.2.2.2.2.2.2.1.ge

theorem incomingBuf2_room : ∀ x, Sized c.M x → c.overflowCapacity ≤ (Buffer.incomingBuf2.get x).length := fun _ hx =>
  overflowCapacity_le.trans hx.lengths.2.2.2.2.2.2.2.2.ge

/-- A search through a list that stands in a buffer. -/
theorem find_local {b : Buffer (Option α)} {xs : List (Option α)} {n : ℕ} {p : Option α → Bool} (hn : xs.length = n)
    (hP : ∀ x, P x → xs <+: b.get x) : Local c P (findFrom b p n 0) fun r x => r = xs.findIdx? p ∧ P x :=
  (findFrom_local hP (by omega)).conseq (fun _ h => h) fun r x hx => ⟨by simpa using hx.1, hx.2⟩

end Reading

/-! ### Overflow chains -/

section Chains

variable {F : GraphContext → Prop} {nid : NID} {node : Node}

/-- What is written to `b` does not matter to `F`. -/
def Closed (b : Buffer α) (F : GraphContext → Prop) : Prop := ∀ x l, F x → F (b.set l x)

/-- What the updates of one slot write does not matter to `F`. -/
structure Unread (F : GraphContext → Prop) : Prop where
  neighbourBuf : Closed Buffer.neighbourBuf F
  overflowBuf : Closed Buffer.overflowBuf F
  chunkIds : Closed Buffer.chunkIds F
  updateSlots : Closed Buffer.updateSlots F

theorem Unread.writes (h : Unread F) : Writes Buffer.neighbourBuf F ∧ Writes Buffer.overflowBuf F :=
  ⟨⟨h.neighbourBuf, h.chunkIds⟩, h.overflowBuf, h.chunkIds⟩

theorem maxNeighbours_lt (hM : c.M ≤ 128) : c.maxNeighbours < 2 ^ 16 := by
  have := maxNeighbours_le (c := c)
  omega

theorem overflowCapacity_lt (hM : c.M ≤ 128) : c.overflowCapacity < 2 ^ 16 := by
  have := overflowCapacity_le (c := c)
  omega

/-- The slot of an update of one slot. -/
theorem writeSlot_local (h2 : 2 ≤ c.M) (hF : Unread F) {slot : ℕ} :
    Local c F (write Buffer.updateSlots 0 slot) fun _ x => [slot] <+: x.updateSlots ∧ F x := by
  refine write_local fun x hx hFx => ?_
  have hpos : 0 < x.updateSlots.length := by
    rw [hx.lengths.2.2.1]
    omega
  exact ⟨hpos, prefix_set List.nil_prefix hpos, hF.updateSlots x _ hFx⟩

theorem updateSlot_matches (h2 : 2 ≤ c.M) (hM : c.M ≤ 128) (hF : Unread F) {slot : ℕ} {v : Option Node}
    (hslot : slot < c.maxNeighbours) (hv : ∀ n ∈ v, n.Fits) :
    Matches c F (IndexGraph.updateSlots nid [(slot, v)]) (do
      write Buffer.updateSlots 0 slot
      updateNeighbours c nid (.array [v]) Buffer.updateSlots) fun _ _ => F := by
  refine Matches.right (writeSlot_local h2 hF) fun _ => ?_
  have hws : Writable c.maxNeighbours [(slot, v)] :=
    ⟨⟨List.pairwise_singleton _ _, by simpa using hslot⟩, by simpa using hv⟩
  have hspan (x : GraphContext) (hx : [slot] <+: x.updateSlots ∧ F x) :
      Span.Holds (.array [v]) [v] x ∧ [slot] <+: Buffer.updateSlots.get x := ⟨rfl, hx.1⟩
  refine (updateNeighbours_matches (F := fun x => [slot] <+: x.updateSlots ∧ F x) h2 hM (by simp) hws hspan
    ⟨fun x l hx => ⟨hx.1, hF.neighbourBuf x l hx.2⟩, fun x l hx => ⟨hx.1, hF.chunkIds x l hx.2⟩⟩).conseq
    (fun _ h => h) fun _ _ _ h => h.2

theorem updateCell_matches (h2 : 2 ≤ c.M) (hM : c.M ≤ 128) (hF : Unread F) {slot : ℕ} {v : Option NID}
    (hslot : slot < c.overflowCapacity) (hv : ∀ n ∈ v, n.Fits) :
    Matches c F (IndexGraph.updateIncoming nid [(slot, v)]) (do
      write Buffer.updateSlots 0 slot
      updateIncoming c nid (.array [v]) Buffer.updateSlots) fun _ _ => F := by
  refine Matches.right (writeSlot_local h2 hF) fun _ => ?_
  have hws : WritableIds c.overflowCapacity [(slot, v)] :=
    ⟨⟨List.pairwise_singleton _ _, by simpa using hslot⟩, by simpa using hv⟩
  have hspan (x : GraphContext) (hx : [slot] <+: x.updateSlots ∧ F x) :
      Span.Holds (.array [v]) [v] x ∧ [slot] <+: Buffer.updateSlots.get x := ⟨rfl, hx.1⟩
  refine (updateIncoming_matches (F := fun x => [slot] <+: x.updateSlots ∧ F x) hM (by simp) hws hspan
    ⟨fun x l hx => ⟨hx.1, hF.overflowBuf x l hx.2⟩, fun x l hx => ⟨hx.1, hF.chunkIds x l hx.2⟩⟩).conseq
    (fun _ h => h) fun _ _ _ h => h.2

theorem addOverflowFrom_matches (h2 : 2 ≤ c.M) (hM : c.M ≤ 128) (hF : Unread F)
    (hbuf : Closed Buffer.incomingBuf1 F) {n : NID} (hn : n.Fits) : ∀ {fuel : ℕ} {parent : NID} {kind : StoreKind}
    {cur : Option NID}, Matches c F (IndexGraph.addOverflowFrom c n fuel parent kind cur)
      (addOverflowFrom c n fuel parent kind cur) fun _ _ => F
  | fuel, parent, kind, none => by
    rw [IndexGraph.addOverflowFrom, addOverflowFrom]
    refine (insertOverflow_matches h2 hn hF.writes.2).bind fun new new' => Matches.of_fact (fun x hx => hx.1) ?_
    rintro ⟨rfl, hnew⟩
    cases kind with
    | neighbour => exact (updateHead_matches h2 hM hnew hF.writes.1).conseq (fun x hx => hx.2) fun _ _ _ h => h
    | overflow => exact (updateNext_matches hM hnew hF.writes.2).conseq (fun x hx => hx.2) fun _ _ _ h => h
  | 0, _, _, some _ => by
    rw [IndexGraph.addOverflowFrom, addOverflowFrom]
    exact Matches.fail
  | fuel + 1, _, _, some cur => by
    rw [IndexGraph.addOverflowFrom, addOverflowFrom]
    refine (fetchOverflow_matches incomingBuf1_room hbuf).bind fun e next => Matches.of_fact
      (A := e.incoming.length = c.overflowCapacity ∧ next = e.overflow) (fun x hx => ⟨hx.1, hx.2.1⟩) ?_
    rintro ⟨hlen, rfl⟩
    refine Matches.right (find_local hlen fun x hx => hx.2.2.1) fun r => Matches.of_fact (fun x hx => hx.1) ?_
    rintro rfl
    rcases hfind : e.incoming.findIdx? Option.isNone with _ | slot
    · exact (addOverflowFrom_matches h2 hM hF hbuf hn).conseq (fun x hx => hx.2.2.2.2) fun _ _ _ h => h
    · obtain ⟨hslot, -⟩ := List.findIdx?_eq_some_iff_getElem.mp hfind
      rw [hlen] at hslot
      dsimp only
      rw [slotIndex_eq (hslot.trans (overflowCapacity_lt hM))]
      exact (updateCell_matches h2 hM hF hslot (by simpa using hn)).conseq (fun x hx => hx.2.2.2.2) fun _ _ _ h => h

/-- `add_overflow_incoming` works in the first ids buffer. -/
theorem addOverflowIncoming_matches (h2 : 2 ≤ c.M) (hM : c.M ≤ 128) (hF : Unread F)
    (hbuf : Closed Buffer.incomingBuf1 F) (hn : node.nid.Fits) {neighbour : Node} {head : Option NID} :
    Matches c F (IndexGraph.addOverflowIncoming c neighbour head node) (addOverflowIncoming c neighbour head node)
      fun _ _ => F := by
  refine (Matches.lift Stored.chainFuel).bind fun fuel fuel' => Matches.of_fact (fun x hx => hx.1.1) ?_
  rintro rfl
  exact (addOverflowFrom_matches h2 hM hF hbuf hn.setIncoming).conseq (fun x hx => hx.2) fun _ _ _ h => h

/-- A slot that a record has. -/
def InSlots (c : LevelCtx) (link : LinkSlot) : Prop :=
  match link.kind with
  | .neighbour => link.slot < c.maxNeighbours
  | .overflow => link.slot < c.overflowCapacity

theorem findOverflowFrom_matches (hM : c.M ≤ 128) (hbuf : Closed Buffer.incomingBuf2 F) {target : NID} :
    ∀ {fuel : ℕ} {cur : Option NID}, Matches c F (IndexGraph.findOverflowFrom target fuel cur)
      (findOverflowFrom c target fuel cur) fun r r' x => (r = r' ∧ ∀ link ∈ r, InSlots c link) ∧ F x
  | fuel, none => by
    rw [IndexGraph.findOverflowFrom, findOverflowFrom]
    exact Matches.pure fun x hx => ⟨⟨rfl, by simp⟩, hx⟩
  | 0, some _ => by
    rw [IndexGraph.findOverflowFrom, findOverflowFrom]
    exact Matches.fail
  | fuel + 1, some cur => by
    rw [IndexGraph.findOverflowFrom, findOverflowFrom]
    refine (fetchOverflow_matches incomingBuf2_room hbuf).bind fun e next => Matches.of_fact
      (A := e.incoming.length = c.overflowCapacity ∧ next = e.overflow) (fun x hx => ⟨hx.1, hx.2.1⟩) ?_
    rintro ⟨hlen, rfl⟩
    refine Matches.right (find_local hlen fun x hx => hx.2.2.1) fun r => Matches.of_fact (fun x hx => hx.1) ?_
    rintro rfl
    rcases hfind : e.incoming.findIdx? fun o => o.any fun n => n.clearIncoming == target with _ | slot
    · simp only [hfind]
      exact (findOverflowFrom_matches hM hbuf).conseq (fun x hx => hx.2.2.2.2) fun _ _ _ h => h
    · obtain ⟨hslot, -⟩ := List.findIdx?_eq_some_iff_getElem.mp hfind
      rw [hlen] at hslot
      simp only [hfind]
      rw [slotIndex_eq (hslot.trans (overflowCapacity_lt hM))]
      refine Matches.pure fun x hx => ⟨⟨rfl, fun link hlink => ?_⟩, hx.2.2.2.2⟩
      cases hlink
      exact hslot

/-- `find_overflow_link` works in the second ids buffer. -/
theorem findOverflowLink_matches (hM : c.M ≤ 128) (hbuf : Closed Buffer.incomingBuf2 F) {head : Option NID}
    {target : NID} : Matches c F (IndexGraph.findOverflowLink head target) (findOverflowLink c head target)
      fun r r' x => (r = r' ∧ ∀ link ∈ r, InSlots c link) ∧ F x := by
  refine (Matches.lift Stored.chainFuel).bind fun fuel fuel' => Matches.of_fact (fun x hx => hx.1.1) ?_
  rintro rfl
  exact (findOverflowFrom_matches hM hbuf).conseq (fun x hx => hx.2) fun _ _ _ h => h

theorem clearLink_matches (h2 : 2 ≤ c.M) (hM : c.M ≤ 128) (hF : Unread F) {link : LinkSlot} (hlink : InSlots c link) :
    Matches c F (IndexGraph.clearLink link) (clearLink c link) fun _ _ => F := by
  obtain ⟨record, kind, slot⟩ := link
  cases kind with
  | neighbour => exact updateSlot_matches h2 hM hF hlink (by simp)
  | overflow => exact updateCell_matches h2 hM hF hlink (by simp)

theorem clearFound_matches (h2 : 2 ≤ c.M) (hM : c.M ≤ 128) (hF : Unread F) : ∀ {r : Option LinkSlot},
    (∀ link ∈ r, InSlots c link) → Matches c F (IndexGraph.clearFound r) (clearFound c r) fun a b x => a = b ∧ F x
  | none, _ => Matches.pure fun _ hx => ⟨rfl, hx⟩
  | some link, h => (clearLink_matches h2 hM hF (h link rfl)).bind fun _ _ => Matches.pure fun _ hx => ⟨rfl, hx⟩

end Chains

/-! ### `link_neighbours_locked` -/

section Link

variable {F : GraphContext → Prop} {node : Node}

/-- The reciprocal edge of one neighbour. -/
theorem landLink_matches (h2 : 2 ≤ c.M) (hM : c.M ≤ 128) (hF : Unread F) (hnodes : Closed Buffer.nodeBuf2 F)
    (hids : Closed Buffer.incomingBuf1 F) (hn : node.Fits) {neighbour : Node} :
    Matches c F (IndexGraph.landLink c node neighbour) (landLink c node neighbour) fun a b x => a = b ∧ F x := by
  refine (attempt_fetch_matches nodeBuf2_room hnodes).bind fun r r' => Matches.after_attempt
    (fun e hr hr' => ?_) fun e h hr hr' he => ?_
  · subst hr hr'
    exact Matches.pure fun x hx => ⟨rfl, hx⟩
  subst hr hr'
  refine Matches.of_fact (fun x hx => hx.1) ?_
  rintro rfl
  have hfree : Local c (fun x => header e = header e ∧ e.neighbours <+: x.nodeBuf2 ∧ F x) (freeSlot c (header e))
      fun r x => r = IndexGraph.freeSlot c e ∧ F x := by
    rw [freeSlot, IndexGraph.freeSlot]
    by_cases hlt : e.neighbours.countP Option.isSome < c.maxNeighbours
    · rw [if_pos hlt, if_pos (show (header e).numValid < _ from hlt)]
      exact (find_local he.1 fun x hx => hx.2.1).conseq (fun _ h => h) fun r x hx => ⟨hx.1, hx.2.2.2⟩
    · rw [if_neg hlt, if_neg (show ¬ (header e).numValid < _ from hlt)]
      exact Local.pure fun x hx => ⟨rfl, hx.2.2⟩
  refine Matches.right hfree fun r => Matches.of_fact (fun x hx => hx.1) ?_
  rintro rfl
  show Matches c _ (landIn c node neighbour e) _ _
  rw [landIn]
  rcases hslot : IndexGraph.freeSlot c e with _ | slot
  · exact ((addOverflowIncoming_matches h2 hM hF hids hn.1).conseq (fun x hx => hx.2) fun _ _ _ h => h).bind
      fun _ _ => Matches.pure fun x hx => ⟨rfl, hx⟩
  · have hlt : slot < c.maxNeighbours := by
      rw [IndexGraph.freeSlot] at hslot
      split at hslot
      · exact he.1 ▸ (List.findIdx?_eq_some_iff_getElem.mp hslot).1
      · cases hslot
    dsimp only
    rw [slotIndex_eq (hlt.trans (maxNeighbours_lt hM))]
    have hupdate := @updateSlot_matches c F neighbour.nid h2 hM hF slot (some node) hlt (by simpa using hn)
    refine Matches.conseq (P := F) ?_ (fun x hx => hx.2) fun _ _ _ h => h
    rw [← bind_assoc]
    exact hupdate.bind fun _ _ => Matches.pure fun x hx => ⟨rfl, hx⟩

/-- The update of the node's own list from a buffer, with the slots in another. -/
theorem updateStaged_matches (h2 : 2 ≤ c.M) (hM : c.M ≤ 128) {b : Buffer (Option Node)} {slots : Buffer ℕ}
    {ws : List (ℕ × Option Node)} {k : ℕ} (hk : k = ws.length) (hws : Writable c.maxNeighbours ws)
    (hsp : ∀ x, F x → ws.map Prod.snd <+: b.get x ∧ ws.map Prod.fst <+: slots.get x)
    (hF : Writes Buffer.neighbourBuf F) :
    Matches c F (IndexGraph.updateSlots node.nid ws) (updateStaged c node b k slots) fun _ _ => F := by
  subst hk
  rcases ws with _ | ⟨w, ws⟩
  · exact Matches.pure fun _ hx => hx
  · rw [updateStaged, if_neg (by simp)]
    exact updateNeighbours_matches h2 hM (by simp) hws (fun x hx => ⟨⟨by simp, (hsp x hx).1⟩, (hsp x hx).2⟩) hF

/-- A value kept by a walk that compacts its list. -/
theorem compact_local {b : Buffer α} (hF : Closed b F) {xs front : List α} {i k : ℕ} {v : α} (hi : i < xs.length)
    (hk : k = front.length) : Local c (fun x => Compacted xs i front (b.get x) ∧ F x) (write b k v) fun _ x =>
      Compacted xs (i + 1) (front ++ [v]) (b.get x) ∧ F x := by
  subst hk
  refine write_local fun x _ ⟨hx, hFx⟩ => ⟨hx.length_lt hi, ?_, hF x _ hFx⟩
  rw [b.get_set]
  exact hx.push hi

/-- A value written behind the list that a buffer holds. -/
theorem append_local {b : Buffer α} (hF : Closed b F) {front : List α} {k : ℕ} {v : α} (hk : k = front.length)
    (hroom : ∀ x, Sized c.M x → front.length < (b.get x).length) :
    Local c (fun x => front <+: b.get x ∧ F x) (write b k v) fun _ x => front ++ [v] <+: b.get x ∧ F x := by
  subst hk
  refine write_local fun x hx ⟨hpre, hFx⟩ => ⟨hroom x hx, ?_, hF x _ hFx⟩
  rw [b.get_set]
  exact prefix_set hpre (hroom x hx)

/-- A walk reads its own list. -/
theorem readOwn_local [Inhabited α] {b : Buffer α} {xs front : List α} {i : ℕ} {o : α} (ho : xs[i]? = some o)
    (hP : ∀ x, P x → Compacted xs i front (b.get x)) : Local c P (read b i) fun a x => a = o ∧ P x := by
  have hget (x : GraphContext) (hx : P x) : (b.get x)[i]? = some o := (hP x hx).get ho
  exact (read_local fun x _ hx => (List.getElem?_eq_some_iff.mp (hget x hx)).1).conseq (fun _ h => h)
    fun a x hx => ⟨Option.some.inj (hx.1.symm.trans (hget x hx.2)), hx.2⟩

theorem getElem?_zipIdx {xs : List α} {i : ℕ} {w : α × ℕ} (h : xs.zipIdx[i]? = some w) : xs[i]? = some w.1 ∧ w.2 = i := by
  rw [List.getElem?_zipIdx] at h
  obtain ⟨o, ho, rfl⟩ := Option.map_eq_some_iff.mp h
  exact ⟨ho, by simp⟩

/-- Between two slots of the walk: `links` are the incoming links so far. -/
structure Linked (c : LevelCtx) (xs : List (Option Node)) (i : ℕ) (a : List Node × List (ℕ × Option Node))
    (b : ℕ × List Node) (x : GraphContext) : Prop where
  same : b = (a.2.length, a.1)
  own : Compacted xs i (a.2.map Prod.snd) x.nodeBuf1
  slots : a.2.map Prod.fst <+: x.linkSlots
  below : Below i (a.2.map Prod.fst)
  fits : ∀ w ∈ a.2, ∀ v ∈ w.2, v.Fits

theorem linkSlot_matches (h2 : 2 ≤ c.M) (hM : c.M ≤ 128) (hn : node.Fits) {xs : List (Option Node)}
    (hxs : StoredList c xs) {i : ℕ} {w : Option Node × ℕ} (hw : xs.zipIdx[i]? = some w)
    (a : List Node × List (ℕ × Option Node)) (b : ℕ × List Node) :
    Matches c (Linked c xs i a b) (IndexGraph.linkSlot c node a w) (linkSlot c node b i) (Linked c xs (i + 1)) := by
  obtain ⟨o, slot⟩ := w
  obtain ⟨ho, rfl⟩ := getElem?_zipIdx hw
  have hlt : slot < xs.length := (List.getElem?_eq_some_iff.mp ho).1
  have hmax : slot < c.maxNeighbours := hxs.1 ▸ hlt
  refine Matches.of_fact (fun x hx => hx.same) ?_
  rintro rfl
  have hskip (x : GraphContext) (hx : Linked c xs slot a (a.2.length, a.1) x) :
      Linked c xs (slot + 1) a (a.2.length, a.1) x := ⟨rfl, hx.own.skip, hx.slots, hx.below.skip, hx.fits⟩
  refine Matches.right (readOwn_local (b := Buffer.nodeBuf1) ho fun x hx => hx.own) fun o' =>
    Matches.of_fact (fun x hx => hx.1) ?_
  rintro rfl
  rcases o' with _ | current
  · exact Matches.pure fun x hx => hskip x hx.2
  rw [IndexGraph.linkSlot]
  dsimp only
  by_cases hin : current.nid.incoming
  swap
  · rw [if_neg hin, if_neg hin]
    exact Matches.pure fun x hx => hskip x hx.2
  rw [if_pos hin, if_pos hin]
  refine Matches.of_fact (A := Below slot (a.2.map Prod.fst) ∧ ∀ w ∈ a.2, ∀ v ∈ w.2, v.Fits)
    (fun x hx => ⟨hx.2.below, hx.2.fits⟩) fun ⟨hbelow, hfits⟩ => ?_
  have hcur : (⟨current.nid.clearIncoming, current.vid⟩ : Node).Fits := hxs.2 _ (List.mem_of_getElem? ho) current rfl
  generalize (⟨current.nid.clearIncoming, current.vid⟩ : Node) = neighbour at hcur ⊢
  refine Matches.right ((compact_local (b := Buffer.nodeBuf1) (F := fun x => a.2.map Prod.fst <+: x.linkSlots)
    (fun _ _ h => h) hlt (by rw [List.length_map])).conseq (fun x hx => ⟨hx.2.own, hx.2.slots⟩) fun _ _ h => h)
    fun _ => ?_
  have hroom (x : GraphContext) (hx : Sized c.M x) : (a.2.map Prod.fst).length < (Buffer.linkSlots.get x).length := by
    have h1 := hbelow.length_le
    have h2 := maxNeighbours_le (c := c)
    rw [show Buffer.linkSlots.get x = x.linkSlots from rfl, hx.lengths.2.2.2.1]
    omega
  refine Matches.right ((append_local (b := Buffer.linkSlots) (F := fun x => Compacted xs (slot + 1)
    (a.2.map Prod.snd ++ [some neighbour]) x.nodeBuf1) (fun _ _ h => h)
    (by rw [List.length_map]) hroom).conseq (fun x hx => ⟨hx.2, hx.1⟩) fun _ _ h => h) fun _ => ?_
  rw [slotIndex_eq (hmax.trans (maxNeighbours_lt hM))]
  refine (landLink_matches (F := fun x => a.2.map Prod.fst ++ [slot] <+: x.linkSlots ∧ Compacted xs (slot + 1)
    (a.2.map Prod.snd ++ [some neighbour]) x.nodeBuf1) h2 hM
    ⟨fun _ _ h => h, fun _ _ h => h, fun _ _ h => h, fun _ _ h => h⟩ (fun _ _ h => h) (fun _ _ h => h) hn).bind
    fun out out' => Matches.pure fun x hx => ?_
  obtain ⟨rfl, hslots, hown⟩ := hx
  refine ⟨by simp, by simpa using hown, by simpa using hslots, by simpa using hbelow.push, fun w hw v hv => ?_⟩
  rcases List.mem_append.mp hw with hw | hw
  · exact hfits w hw v hv
  · rw [List.mem_singleton.mp hw] at hv
    cases hv
    exact hcur

/-- **`link_neighbours`** in its buffers. -/
theorem linkNeighboursLocked_matches (h2 : 2 ≤ c.M) (hM : c.M ≤ 128) (hn : node.Fits) :
    Matches c (fun _ => True) (IndexGraph.linkNeighboursLocked c node) (linkNeighboursLocked c node)
      fun a b _ => a = b := by
  refine (fetch_matches nodeBuf1_room fun _ _ _ => trivial).bind fun e h => Matches.of_fact
    (fun x hx => hx.1) fun he => ?_
  have hlen : e.neighbours.zipIdx.length = c.maxNeighbours := by rw [List.length_zipIdx, he.1]
  have hloop := (Matches.foldlM_range (I := Linked c e.neighbours)
    (fun i w hw a b => linkSlot_matches h2 hM hn he hw a b) ([], []) (0, []))
  rw [hlen] at hloop
  refine (hloop.conseq (fun x hx => ⟨rfl, Compacted.start hx.2.2.1, List.nil_prefix, Below.nil, by simp⟩)
    fun _ _ _ h => h).bind fun a b => Matches.of_fact (A := b = (a.2.length, a.1) ∧ Writable c.maxNeighbours a.2)
      (fun x hx => ⟨hx.same, hx.below, hx.fits⟩) ?_
  rintro ⟨rfl, hws⟩
  refine (updateStaged_matches (F := fun x => a.2.map Prod.snd <+: x.nodeBuf1 ∧ a.2.map Prod.fst <+: x.linkSlots)
    h2 hM rfl hws (fun x hx => hx) ⟨fun _ _ h => h, fun _ _ h => h⟩).conseq (fun x hx => ⟨hx.own.kept, hx.slots⟩)
    (fun _ _ _ h => h) |>.bind fun _ _ => Matches.pure fun _ _ => rfl

end Link

/-! ### `replace_neighbours` -/

section Replace

variable {F : GraphContext → Prop} {node : Node} {updated : List Node}

/-- What `find?` and `findIdx?` say of a list's slots. -/
theorem findIdx?_of_find? {xs : List (Option α)} {p : Option α → Bool} {w : Option α × ℕ}
    (h : (xs.zipIdx.find? fun w => p w.1) = some w) : xs.findIdx? p = some w.2 ∧ xs[w.2]? = some w.1 ∧ p w.1 := by
  have hmem := List.mem_of_find?_eq_some h
  have hp := List.find?_some h
  refine ⟨?_, List.mk_mem_zipIdx_iff_getElem?.mp hmem, hp⟩
  rw [List.findIdx?_eq_fst_find?_zipIdx]
  exact congrArg (Option.map Prod.snd) h

theorem dropFrom_matches (h2 : 2 ≤ c.M) (hM : c.M ≤ 128) (hF : Unread F) (hids : Closed Buffer.incomingBuf2 F)
    {neighbour : NID} {e : NeighbourEntry} (he : StoredList c e.neighbours) :
    Matches c (fun x => e.neighbours <+: x.nodeBuf2 ∧ F x) (dropFrom node neighbour e) (do
      match ← findFrom Buffer.nodeBuf2 (slotNames node.nid) c.maxNeighbours 0 with
      | some slot => do
        let nid ← read Buffer.nodeBuf2 slot
        if nid.any fun n => n.nid.incoming then do
          clearLink c ⟨neighbour, .neighbour, slotIndex slot⟩
          pure false
        else pure true
      | none => do
        let link ← findOverflowLink c (header e).overflow node.nid
        let _ ← clearFound c link
        pure false) fun a b x => a = b ∧ F x := by
  refine Matches.right (find_local he.1 fun x hx => hx.1) fun r => Matches.of_fact (fun x hx => hx.1) ?_
  rintro rfl
  rcases hfind : e.neighbours.zipIdx.find? fun w => slotNames node.nid w.1 with _ | ⟨o, slot⟩
  · have hnone : e.neighbours.findIdx? (slotNames node.nid) = none := by
      rw [List.findIdx?_eq_fst_find?_zipIdx]
      exact congrArg (Option.map Prod.snd) hfind
    have hfresh : dropFrom node neighbour e = (do
        let link ← IndexGraph.findOverflowLink e.overflow node.nid
        let _ ← IndexGraph.clearFound link
        pure false) := by
      unfold dropFrom
      rw [hfind]
    rw [hnone, hfresh]
    refine ((findOverflowLink_matches (F := F) hM hids).conseq (fun x hx => hx.2.2) fun _ _ _ h => h).bind fun link link' =>
      Matches.of_fact (fun x hx => hx.1) ?_
    rintro ⟨rfl, hlink⟩
    exact ((clearFound_matches h2 hM hF hlink).conseq (fun x hx => hx.2) fun _ _ _ h => h).bind fun _ _ =>
      Matches.pure fun x hx => ⟨rfl, hx.2⟩
  · obtain ⟨hidx, hslot, hnames⟩ := findIdx?_of_find? hfind
    obtain ⟨n, rfl⟩ : ∃ n, o = some n := by
      rcases o with _ | n
      · cases hnames
      · exact ⟨n, rfl⟩
    have hlt : slot < c.maxNeighbours := he.1 ▸ (List.getElem?_eq_some_iff.mp hslot).1
    have hlink : InSlots c ⟨neighbour, .neighbour, slot⟩ := hlt
    have hget (x : GraphContext) (hx : e.neighbours <+: x.nodeBuf2) :
        (Buffer.nodeBuf2.get x)[slot]? = some (some n) := prefix_getElem? hx hslot
    have hfresh : dropFrom node neighbour e = (if n.nid.incoming then do
        IndexGraph.clearLink ⟨neighbour, .neighbour, slot⟩
        pure false
      else pure true) := by
      unfold dropFrom
      rw [hfind]
    rw [hidx, hfresh]
    refine Matches.right (read_local fun x _ hx => (List.getElem?_eq_some_iff.mp (hget x hx.2.1)).1) fun o =>
      Matches.of_fact (A := o = some n) (fun x hx => Option.some.inj (hx.1.symm.trans (hget x hx.2.2.1))) ?_
    rintro rfl
    dsimp only [Option.any_some]
    rw [slotIndex_eq (hlt.trans (maxNeighbours_lt hM))]
    split
    · exact ((clearLink_matches (F := F) h2 hM hF hlink).conseq (fun x hx => hx.2.2.2) fun _ _ _ h => h).bind fun _ _ =>
        Matches.pure fun x hx => ⟨rfl, hx⟩
    · exact Matches.pure fun x hx => ⟨rfl, hx.2.2.2⟩

theorem dropNeighbourLink_matches (h2 : 2 ≤ c.M) (hM : c.M ≤ 128) (hF : Unread F) (hnodes : Closed Buffer.nodeBuf2 F)
    (hids : Closed Buffer.incomingBuf2 F) {neighbour : NID} :
    Matches c F (IndexGraph.dropNeighbourLink node neighbour) (dropNeighbourLink c node neighbour)
      fun a b x => a = b ∧ F x := by
  refine (attempt_fetch_matches nodeBuf2_room hnodes).bind fun r r' => Matches.after_attempt
    (fun e hr hr' => ?_) fun e h hr hr' he => ?_
  · subst hr hr'
    exact Matches.pure fun x hx => ⟨rfl, hx⟩
  subst hr hr'
  refine Matches.of_fact (fun x hx => hx.1) ?_
  rintro rfl
  exact (dropFrom_matches h2 hM hF hids he).conseq (fun x hx => hx.2) fun _ _ _ h => h

theorem take_snoc {xs : List α} {i : ℕ} {o : α} (ho : xs[i]? = some o) : xs.take (i + 1) = xs.take i ++ [o] := by
  rw [List.take_add_one, ho]
  rfl

theorem demoted_snoc {xs : List (Option Node)} {i : ℕ} {o : Option Node} (ho : xs[i]? = some o) :
    demoted updated (xs.take (i + 1)) = demoted updated (xs.take i) ++ (o.bind fun n =>
      if n.nid.incoming || inUpdated updated n then none
      else some (i, some ⟨n.nid.setIncoming, n.vid⟩)).toList := by
  have hlen : (xs.take i).length = i := by
    have := (List.getElem?_eq_some_iff.mp ho).1
    rw [List.length_take]
    omega
  rw [take_snoc ho, demoted, List.zipIdx_append, List.filterMap_append, Nat.zero_add, hlen, demoted]
  congr 1
  rcases o with _ | n
  · rfl
  · simp only [List.zipIdx_singleton, List.filterMap_cons, List.filterMap_nil, Option.bind_some]
    by_cases h : (n.nid.incoming || inUpdated updated n) = true
    · rw [if_pos h]
      rfl
    · rw [if_neg h]
      rfl

/-- Between two slots of step A: the demoted links so far stand in the other buffer. -/
structure Demoted (updated : List Node) (xs : List (Option Node)) (i num : ℕ) (x : GraphContext) : Prop where
  same : num = (demoted updated (xs.take i)).length
  below : Below i ((demoted updated (xs.take i)).map Prod.fst)
  own : xs <+: x.nodeBuf1
  staged : (demoted updated (xs.take i)).map Prod.snd <+: x.nodeBuf2
  slots : (demoted updated (xs.take i)).map Prod.fst <+: x.updateSlots

theorem demoteSlot_local (hM : c.M ≤ 128) {xs : List (Option Node)} (hxs : xs.length = c.maxNeighbours) {i num : ℕ}
    (hi : i < c.maxNeighbours) :
    Local c (Demoted updated xs i num) (demoteSlot updated num i) (Demoted updated xs (i + 1)) := by
  obtain ⟨o, ho⟩ : ∃ o, xs[i]? = some o := ⟨_, List.getElem?_eq_getElem (hxs ▸ hi)⟩
  have hsnoc := @demoted_snoc updated _ _ _ ho
  refine (readList_local (b := Buffer.nodeBuf1) ho fun x hx => hx.own).bind fun o' => Local.of_fact (fun x hx => hx.1) ?_
  rintro rfl
  have hskip (hnil : demoted updated (xs.take (i + 1)) = demoted updated (xs.take i)) (x : GraphContext)
      (hx : Demoted updated xs i num x) : Demoted updated xs (i + 1) num x := by
    refine ⟨?_, ?_, hx.own, ?_, ?_⟩ <;> rw [hnil]
    exacts [hx.same, hx.below.skip, hx.staged, hx.slots]
  rcases o' with _ | current
  · exact Local.pure fun x hx => hskip (by rw [hsnoc]; simp) x hx.2
  dsimp only
  by_cases hkeep : (current.nid.incoming || inUpdated updated current) = true
  · rw [if_pos hkeep]
    exact Local.pure fun x hx => hskip (by rw [hsnoc, Option.bind_some, if_pos hkeep]; exact List.append_nil _) x hx.2
  rw [if_neg hkeep]
  refine Local.of_fact (A := num = (demoted updated (xs.take i)).length ∧
    Below i ((demoted updated (xs.take i)).map Prod.fst)) (fun x hx => ⟨hx.2.same, hx.2.below⟩) ?_
  rintro ⟨rfl, hbelow⟩
  have hroom := hbelow.length_le
  have hmax := maxNeighbours_le (c := c)
  have hpush : demoted updated (xs.take (i + 1)) =
      demoted updated (xs.take i) ++ [(i, some ⟨current.nid.setIncoming, current.vid⟩)] := by
    rw [hsnoc, Option.bind_some, if_neg hkeep]
    rfl
  generalize (⟨current.nid.setIncoming, current.vid⟩ : Node) = flagged at hpush ⊢
  set links := demoted updated (xs.take i) with hlinks
  refine Local.bind ((append_local (b := Buffer.nodeBuf2) (F := fun x => xs <+: x.nodeBuf1 ∧
    links.map Prod.fst <+: x.updateSlots) (fun _ _ h => h) (List.length_map _).symm fun x hx => ?_).conseq
    (fun x hx => ⟨hx.2.staged, hx.2.own, hx.2.slots⟩) fun _ _ h => h) fun _ => ?_
  · rw [show Buffer.nodeBuf2.get x = x.nodeBuf2 from rfl, hx.lengths.2.2.2.2.2.2.1, List.length_map]
    rw [List.length_map] at hroom
    omega
  rw [slotIndex_eq (hi.trans (maxNeighbours_lt hM))]
  refine Local.bind ((append_local (b := Buffer.updateSlots) (F := fun x => xs <+: x.nodeBuf1 ∧
    links.map Prod.snd ++ [some flagged] <+: x.nodeBuf2) (fun _ _ h => h)
    (List.length_map _).symm fun x hx => ?_).conseq (fun x hx => ⟨hx.2.2, hx.2.1, hx.1⟩) fun _ _ h => h) fun _ => ?_
  · rw [show Buffer.updateSlots.get x = x.updateSlots from rfl, hx.lengths.2.2.1]
    omega
  refine Local.pure fun x hx => ⟨?_, ?_, hx.2.1, ?_, ?_⟩ <;> rw [hpush]
  · rw [List.length_append, List.length_singleton]
  · rw [List.map_append]
    exact hbelow.push
  · rw [List.map_append]
    exact hx.2.2
  · rw [List.map_append]
    exact hx.1

/-- **Step A** of `replace_neighbours`. -/
theorem demote_loop (hM : c.M ≤ 128) {xs : List (Option Node)} (hxs : StoredList c xs) :
    Local c (fun x => xs <+: x.nodeBuf1) ((List.range c.maxNeighbours).foldlM (demoteSlot updated) 0)
      fun num x => (num = (demoted updated xs).length ∧ Writable c.maxNeighbours (demoted updated xs)) ∧
        xs <+: x.nodeBuf1 ∧ (demoted updated xs).map Prod.snd <+: x.nodeBuf2 ∧
          (demoted updated xs).map Prod.fst <+: x.updateSlots := by
  have hfits : ∀ w ∈ demoted updated xs, ∀ v ∈ w.2, v.Fits := by
    intro w hw v hv
    obtain ⟨⟨o, i⟩, ho, hmap⟩ := List.mem_filterMap.mp hw
    rcases o with _ | n
    · cases hmap
    · dsimp only at hmap
      split at hmap
      · cases hmap
      · cases hmap
        cases hv
        exact hxs.2 _ (List.fst_mem_of_mem_zipIdx ho) n rfl
  have hloop := Local.foldlM_range (I := Demoted updated xs) (fun i hi num => demoteSlot_local hM hxs.1 hi) 0
  refine hloop.conseq (fun x hx => ⟨rfl, Below.nil, hx, List.nil_prefix, List.nil_prefix⟩) fun num x hx => ?_
  have htake : xs.take c.maxNeighbours = xs := List.take_of_length_le hxs.1.le
  obtain ⟨hsame, hbelow, hown, hstaged, hslots⟩ := hx
  rw [htake] at hsame hbelow hstaged hslots
  exact ⟨⟨hsame, hbelow, hfits⟩, hown, hstaged, hslots⟩

/-- **Step B** of `replace_neighbours`, for one slot. -/
theorem dropSlot_matches (h2 : 2 ≤ c.M) (hM : c.M ≤ 128) {xs : List (Option Node)} (hxs : StoredList c xs) {i : ℕ}
    {o : Option Node} (ho : xs[i]? = some o) :
    Matches c (fun x => xs <+: x.nodeBuf1) (IndexGraph.dropSlot c node updated o) (dropSlot c node updated i)
      fun _ _ x => xs <+: x.nodeBuf1 := by
  have hF : Unread fun x => xs <+: x.nodeBuf1 := ⟨fun _ _ h => h, fun _ _ h => h, fun _ _ h => h, fun _ _ h => h⟩
  refine Matches.right (readList_local (b := Buffer.nodeBuf1) ho fun x hx => hx) fun o' =>
    Matches.of_fact (fun x hx => hx.1) ?_
  rintro rfl
  rcases o' with _ | current
  · exact Matches.pure fun x hx => hx.2
  rw [IndexGraph.dropSlot]
  dsimp only
  by_cases hkeep : inUpdated updated current
  · rw [if_pos hkeep, if_pos hkeep]
    exact Matches.pure fun x hx => hx.2
  rw [if_neg hkeep, if_neg hkeep]
  have hfits : current.nid.clearIncoming.Fits := (hxs.2 _ (List.mem_of_getElem? ho) current rfl).1
  refine ((dropNeighbourLink_matches (F := fun x => xs <+: x.nodeBuf1) h2 hM hF (fun _ _ h => h)
    fun _ _ h => h).conseq (fun x hx => hx.2) fun _ _ _ h => h).bind fun keeps keeps' =>
      Matches.of_fact (fun x hx => hx.1) ?_
  rintro rfl
  cases keeps with
  | false => exact Matches.pure fun x hx => hx.2
  | true =>
    refine (Matches.lift Stored.fetch).bind fun head head' => Matches.of_fact (fun x hx => hx.1.1) ?_
    rintro rfl
    exact (addOverflowIncoming_matches (F := fun x => xs <+: x.nodeBuf1) h2 hM hF (fun _ _ h => h) hfits).conseq
      (fun x hx => hx.2.2) fun _ _ _ h => h

/-- Between two links of step C: the staged ones stand in the other buffer. -/
structure Staged (c : LevelCtx) (xs : List (Option Node)) (rest : List Node) (a : List Node × List LinkSlot)
    (b : ℕ × List LinkSlot) (x : GraphContext) : Prop where
  same : b = (a.1.length, a.2)
  room : a.1.length + rest.length ≤ c.maxNeighbours
  fits : (∀ u ∈ rest, u.Fits) ∧ ∀ v ∈ a.1, v.Fits
  inSlots : ∀ link ∈ a.2, InSlots c link
  own : xs <+: x.nodeBuf1
  staged : a.1.map some <+: x.nodeBuf2

/-- **Step C** of `replace_neighbours`, for one link. -/
theorem stageLink_matches (hM : c.M ≤ 128) {xs : List (Option Node)} (hxs : StoredList c xs)
    {head : Option NID} (target : Node) (rest : List Node) (a : List Node × List LinkSlot) (b : ℕ × List LinkSlot) :
    Matches c (Staged c xs (target :: rest) a b) (IndexGraph.stageLink xs head a target) (stageLink c head b target)
      (Staged c xs rest) := by
  refine Matches.of_fact (A := b = (a.1.length, a.2) ∧ a.1.length + (rest.length + 1) ≤ c.maxNeighbours ∧
    ((∀ u ∈ target :: rest, u.Fits) ∧ ∀ v ∈ a.1, v.Fits) ∧ ∀ link ∈ a.2, InSlots c link)
    (fun x hx => ⟨hx.same, hx.room, hx.fits, hx.inSlots⟩) ?_
  rintro ⟨rfl, hroom, ⟨hrest, hfits⟩, hlinks⟩
  obtain ⟨htarget, hrest⟩ := List.forall_mem_cons.mp hrest
  refine Matches.right (find_local hxs.1 fun x hx => hx.own) fun r => Matches.of_fact (fun x hx => hx.1) ?_
  rintro rfl
  rw [IndexGraph.stageLink, ← List.findIdx?_isSome]
  rcases hfind : xs.findIdx? (slotNames target.nid) with _ | slot
  swap
  · rw [Option.isSome_some, if_pos rfl]
    exact Matches.pure fun x hx => ⟨rfl, by omega, ⟨hrest, hfits⟩, hlinks, hx.2.own, hx.2.staged⟩
  rw [Option.isSome_none, if_neg Bool.false_ne_true]
  dsimp only
  refine ((findOverflowLink_matches (F := fun x => xs <+: x.nodeBuf1 ∧ a.1.map some <+: x.nodeBuf2) hM
    fun _ _ h => h).conseq (fun x hx => ⟨hx.2.own, hx.2.staged⟩) fun _ _ _ h => h).bind fun link link' =>
      Matches.of_fact (fun x hx => hx.1) ?_
  rintro ⟨rfl, hlink⟩
  have hwrite (v : Node) : Local c (fun x => (link = link ∧ ∀ l ∈ link, InSlots c l) ∧ xs <+: x.nodeBuf1 ∧
      a.1.map some <+: x.nodeBuf2) (write Buffer.nodeBuf2 a.1.length (some v)) fun _ x =>
        a.1.map some ++ [some v] <+: x.nodeBuf2 ∧ xs <+: x.nodeBuf1 := by
    refine (append_local (b := Buffer.nodeBuf2) (F := fun x => xs <+: x.nodeBuf1) (fun _ _ h => h)
      (List.length_map _).symm fun x hx => ?_).conseq (fun x hx => ⟨hx.2.2, hx.2.1⟩) fun _ _ h => h
    have hmax := maxNeighbours_le (c := c)
    rw [show Buffer.nodeBuf2.get x = x.nodeBuf2 from rfl, hx.lengths.2.2.2.2.2.2.1, List.length_map]
    omega
  have hlen (v : Node) : (a.1 ++ [v]).length = a.1.length + 1 := by rw [List.length_append, List.length_singleton]
  have hcount (v : Node) : (a.1 ++ [v]).length + rest.length ≤ c.maxNeighbours := by
    rw [hlen]
    omega
  have hmap (v : Node) : (a.1 ++ [v]).map some = a.1.map some ++ [some v] := List.map_append
  have happend {v : Node} (hv : v.Fits) : ∀ u ∈ a.1 ++ [v], u.Fits := by
    intro u hu
    rcases List.mem_append.mp hu with hu | hu
    · exact hfits u hu
    · rw [List.mem_singleton.mp hu]
      exact hv
  rcases link with _ | link
  · refine Matches.right (hwrite _) fun _ => Matches.pure fun x hx => ⟨by rw [hlen], hcount _,
      ⟨hrest, happend htarget⟩, hlinks, hx.2, ?_⟩
    rw [hmap]
    exact hx.1
  · refine Matches.right (hwrite _) fun _ => Matches.pure fun x hx => ⟨by rw [hlen], hcount _,
      ⟨hrest, happend htarget⟩, fun l hl => ?_, hx.2, ?_⟩
    · rcases List.mem_append.mp hl with hl | hl
      · exact hlinks l hl
      · rw [List.mem_singleton.mp hl]
        exact hlink link rfl
    · rw [hmap]
      exact hx.1

/-- A slot that step D writes to while there is a link left. -/
def vacated (updated : List Node) (o : Option Node) : Bool := !o.any (inUpdated updated)

section Fill

variable {xs : List (Option Node)} {k : ℕ} {o : Option Node} {staged : List Node}

theorem fillSlots_kept (h : vacated updated o = false) :
    fillSlots updated k (o :: xs) staged = fillSlots updated (k + 1) xs staged := by
  rcases o with _ | n
  · cases h
  · have hkeep : inUpdated updated n = true := by simpa [vacated] using h
    cases staged <;> simp [fillSlots, hkeep]

theorem fillSlots_vacated (h : vacated updated o = true) {v : Node} :
    fillSlots updated k (o :: xs) (v :: staged) = (k, some v) :: fillSlots updated (k + 1) xs staged := by
  rcases o with _ | n
  · rfl
  · have hkeep : inUpdated updated n = false := by simpa [vacated] using h
    simp [fillSlots, hkeep]

theorem fillSlots_left (h : vacated updated o = true) : fillSlots updated k (o :: xs) [] =
    (if o.isNone then [] else [(k, none)]) ++ fillSlots updated (k + 1) xs [] := by
  rcases o with _ | n
  · rfl
  · have hkeep : inUpdated updated n = false := by simpa [vacated] using h
    simp [fillSlots, hkeep]

theorem fillSlots_append {ys : List (Option Node)} : ∀ {xs : List (Option Node)} {k : ℕ} {staged : List Node},
    fillSlots updated k (xs ++ ys) staged = fillSlots updated k xs staged ++
      fillSlots updated (k + xs.length) ys (staged.drop (xs.countP (vacated updated)))
  | [], _, _ => rfl
  | o :: xs, k, staged => by
    have hlen : k + (o :: xs).length = k + 1 + xs.length := by rw [List.length_cons, Nat.add_assoc, Nat.add_comm 1]
    rw [List.cons_append, hlen]
    rcases h : vacated updated o
    · rw [fillSlots_kept h, fillSlots_kept h, fillSlots_append, List.countP_cons_of_neg (by simp [h])]
    · rw [List.countP_cons_of_pos h]
      rcases staged with _ | ⟨v, vs⟩
      · rw [fillSlots_left h, fillSlots_left h, fillSlots_append, List.drop_nil, List.drop_nil, List.append_assoc]
      · rw [fillSlots_vacated h, fillSlots_vacated h, fillSlots_append, List.drop_succ_cons, List.cons_append]

theorem mem_fillSlots {w : ℕ × Option Node} : ∀ {xs : List (Option Node)} {k : ℕ} {staged : List Node},
    w ∈ fillSlots updated k xs staged → ∀ v ∈ w.2, v ∈ staged
  | [], _, _, hw => by cases hw
  | o :: xs, k, staged, hw => by
    rcases h : vacated updated o
    · rw [fillSlots_kept h] at hw
      exact mem_fillSlots hw
    · rcases staged with _ | ⟨v, vs⟩
      · rw [fillSlots_left h] at hw
        rcases List.mem_append.mp hw with hw | hw
        · split at hw
          · cases hw
          · rw [List.mem_singleton.mp hw]
            exact fun u hu => by cases hu
        · exact mem_fillSlots hw
      · rw [fillSlots_vacated h] at hw
        rcases List.mem_cons.mp hw with rfl | hw
        · intro u hu
          cases hu
          exact List.mem_cons_self
        · exact fun u hu => List.mem_cons_of_mem _ (mem_fillSlots hw u hu)

/-- What one more slot adds. -/
theorem fillSlots_snoc {i : ℕ} (ho : xs[i]? = some o) : fillSlots updated 0 (xs.take (i + 1)) staged =
    fillSlots updated 0 (xs.take i) staged ++
      fillSlots updated i [o] (staged.drop ((xs.take i).countP (vacated updated))) := by
  have hlen : (xs.take i).length = i := by
    have := (List.getElem?_eq_some_iff.mp ho).1
    rw [List.length_take]
    omega
  rw [take_snoc ho, fillSlots_append, hlen, Nat.zero_add]

theorem countP_snoc {p : Option Node → Bool} {i : ℕ} (ho : xs[i]? = some o) :
    (xs.take (i + 1)).countP p = (xs.take i).countP p + if p o then 1 else 0 := by
  rw [take_snoc ho, List.countP_append, List.countP_singleton]

end Fill

/-- Between two slots of step D: the writes so far stand compacted in the list's own buffer. -/
structure Filled (updated : List Node) (xs : List (Option Node)) (staged : List Node) (i : ℕ) (b : ℕ × ℕ)
    (x : GraphContext) : Prop where
  same : b = ((fillSlots updated 0 (xs.take i) staged).length,
    min ((xs.take i).countP (vacated updated)) staged.length)
  below : Below i ((fillSlots updated 0 (xs.take i) staged).map Prod.fst)
  own : Compacted xs i ((fillSlots updated 0 (xs.take i) staged).map Prod.snd) x.nodeBuf1
  slots : (fillSlots updated 0 (xs.take i) staged).map Prod.fst <+: x.updateSlots
  staged : staged.map some <+: x.nodeBuf2

/-- A write of step D. -/
theorem fillPush_local (hM : c.M ≤ 128) {xs : List (Option Node)} (hxs : xs.length = c.maxNeighbours) {i : ℕ}
    (hi : i < c.maxNeighbours) {links : List (ℕ × Option Node)} (hlinks : Below i (links.map Prod.fst))
    {v : Option Node} {F : GraphContext → Prop} (hnodes : Closed Buffer.nodeBuf1 F) (hslots : Closed Buffer.updateSlots F)
    {m : ℕ} :
    Local c (fun x => Compacted xs i (links.map Prod.snd) x.nodeBuf1 ∧ links.map Prod.fst <+: x.updateSlots ∧ F x) (do
      write Buffer.nodeBuf1 links.length v
      write Buffer.updateSlots links.length (slotIndex i)
      pure (links.length + 1, m)) fun b x =>
        b = ((links ++ [(i, v)]).length, m) ∧ Compacted xs (i + 1) ((links ++ [(i, v)]).map Prod.snd) x.nodeBuf1 ∧
          (links ++ [(i, v)]).map Prod.fst <+: x.updateSlots ∧ F x := by
  refine Local.bind ((compact_local (b := Buffer.nodeBuf1) (F := fun x => links.map Prod.fst <+: x.updateSlots ∧ F x)
    (fun x l hx => ⟨hx.1, hnodes x l hx.2⟩) (hxs ▸ hi) (List.length_map _).symm).conseq (fun _ h => h) fun _ _ h => h)
    fun _ => ?_
  rw [slotIndex_eq (hi.trans (maxNeighbours_lt hM)), List.map_append, List.map_append, List.length_append]
  refine Local.bind ((append_local (b := Buffer.updateSlots) (F := fun x =>
    Compacted xs (i + 1) (links.map Prod.snd ++ [v]) x.nodeBuf1 ∧ F x) (fun x l hx => ⟨hx.1, hslots x l hx.2⟩)
    (List.length_map _).symm fun x hx => ?_).conseq (fun x hx => ⟨hx.2.1, hx.1, hx.2.2⟩) fun _ _ h => h)
    fun _ => Local.pure fun x hx => ⟨rfl, hx.2.1, hx.1, hx.2.2⟩
  have hroom := hlinks.length_le
  have hmax := maxNeighbours_le (c := c)
  rw [show Buffer.updateSlots.get x = x.updateSlots from rfl, hx.lengths.2.2.1]
  omega

/-- **Step D** of `replace_neighbours`, for one slot. -/
theorem fillSlot_local (hM : c.M ≤ 128) {xs : List (Option Node)} (hxs : xs.length = c.maxNeighbours)
    {staged : List Node} {i : ℕ} (hi : i < c.maxNeighbours) {b : ℕ × ℕ} :
    Local c (Filled updated xs staged i b) (fillSlot updated staged.length b i) (Filled updated xs staged (i + 1)) := by
  have hlt : i < xs.length := hxs ▸ hi
  obtain ⟨o, ho⟩ : ∃ o, xs[i]? = some o := ⟨_, List.getElem?_eq_getElem hlt⟩
  have hsnoc := @fillSlots_snoc updated _ _ staged _ ho
  have hcount := countP_snoc (p := vacated updated) ho
  refine Local.of_fact (A := b = ((fillSlots updated 0 (xs.take i) staged).length,
    min ((xs.take i).countP (vacated updated)) staged.length) ∧
    Below i ((fillSlots updated 0 (xs.take i) staged).map Prod.fst)) (fun x hx => ⟨hx.same, hx.below⟩) ?_
  rintro ⟨rfl, hbelow⟩
  refine (readOwn_local (b := Buffer.nodeBuf1) ho fun x hx => hx.own).bind fun o' => Local.of_fact (fun x hx => hx.1) ?_
  rintro rfl
  set links := fillSlots updated 0 (xs.take i) staged with hlinks
  set n := (xs.take i).countP (vacated updated) with hn
  have hskip (hadd : fillSlots updated i [o'] (staged.drop n) = []) (hmin : min (n + if vacated updated o' then 1 else 0)
      staged.length = min n staged.length) (x : GraphContext)
      (hx : Filled updated xs staged i (links.length, min n staged.length) x) :
      Filled updated xs staged (i + 1) (links.length, min n staged.length) x := by
    have hsame : fillSlots updated 0 (xs.take (i + 1)) staged = links := by rw [hsnoc, hadd, List.append_nil]
    refine ⟨by rw [hsame, hcount, hmin], ?_, ?_, ?_, hx.staged⟩ <;> rw [hsame]
    exacts [hbelow.skip, hx.own.skip, hx.slots]
  have hpush {v : Option Node} {m : ℕ} (hadd : fillSlots updated i [o'] (staged.drop n) = [(i, v)])
      (hm : m = min (n + if vacated updated o' then 1 else 0) staged.length) :
      Local c (Filled updated xs staged i (links.length, min n staged.length)) (do
        write Buffer.nodeBuf1 links.length v
        write Buffer.updateSlots links.length (slotIndex i)
        pure (links.length + 1, m)) (Filled updated xs staged (i + 1)) := by
    have hsame : fillSlots updated 0 (xs.take (i + 1)) staged = links ++ [(i, v)] := by rw [hsnoc, hadd]
    refine (fillPush_local (F := fun x => staged.map some <+: x.nodeBuf2) hM hxs hi hbelow (fun _ _ h => h)
      fun _ _ h => h).conseq (fun x hx => ⟨hx.own, hx.slots, hx.staged⟩) fun b x hx => ?_
    refine ⟨?_, ?_, ?_, ?_, hx.2.2.2⟩ <;> rw [hsame]
    · rw [hx.1, hcount, hm]
    · rw [List.map_append]
      exact hbelow.push
    · exact hx.2.1
    · exact hx.2.2.1
  rcases hvac : vacated updated o'
  · have hkeep : o'.any (inUpdated updated) = true := by simpa [vacated] using hvac
    rw [if_pos hkeep]
    exact Local.pure fun x hx => hskip (fillSlots_kept hvac) (by simp [hvac]) x hx.2
  have hdrop : ¬ o'.any (inUpdated updated) = true := by simpa [vacated] using hvac
  rw [if_neg hdrop]
  dsimp only
  by_cases hnext : n < staged.length
  · -- a staged link takes the slot
    have hmin : min n staged.length = n := Nat.min_eq_left hnext.le
    have hread : (staged.map some)[n]? = some (some staged[n]) := by
      rw [List.getElem?_map, List.getElem?_eq_getElem hnext]
      rfl
    rw [hmin, if_pos hnext]
    refine (readList_local (b := Buffer.nodeBuf2) hread fun x hx => hx.2.staged).bind fun value =>
      Local.of_fact (fun x hx => hx.1) ?_
    rintro rfl
    rw [hmin] at hpush
    refine (hpush ?_ ?_).conseq (fun x hx => hx.2.2) fun _ _ h => h
    · rw [List.drop_eq_getElem_cons hnext, fillSlots_vacated hvac]
      rfl
    · rw [if_pos hvac, Nat.min_eq_left hnext]
  -- a dropped link that is left over is cleared
  have hdone : staged.drop n = [] := List.drop_of_length_le (Nat.le_of_not_lt hnext)
  have hmin : min n staged.length = staged.length := Nat.min_eq_right (Nat.le_of_not_lt hnext)
  have hmin' : min (n + if vacated updated o' then 1 else 0) staged.length = staged.length :=
    Nat.min_eq_right ((Nat.le_of_not_lt hnext).trans (Nat.le_add_right _ _))
  have hleft := @fillSlots_left updated [] i _ hvac
  rw [if_neg (by omega)]
  by_cases hfree : o'.isNone = true
  · rw [if_pos hfree] at hleft ⊢
    exact Local.pure fun x hx => hskip (by rw [hdone, hleft]; rfl) (by rw [hmin', hmin]) x hx.2
  · rw [if_neg hfree] at hleft ⊢
    exact (hpush (by rw [hdone, hleft]; rfl) (by rw [hmin', hmin])).conseq (fun x hx => hx.2) fun _ _ h => h

/-- **Step D** of `replace_neighbours`. -/
theorem fill_loop (hM : c.M ≤ 128) {xs : List (Option Node)} (hxs : xs.length = c.maxNeighbours)
    {staged : List Node} (hstaged : ∀ v ∈ staged, v.Fits) :
    Local c (fun x => xs <+: x.nodeBuf1 ∧ staged.map some <+: x.nodeBuf2)
      ((List.range c.maxNeighbours).foldlM (fillSlot updated staged.length) (0, 0)) fun b x =>
        (b.1 = (fillSlots updated 0 xs staged).length ∧ Writable c.maxNeighbours (fillSlots updated 0 xs staged)) ∧
          (fillSlots updated 0 xs staged).map Prod.snd <+: x.nodeBuf1 ∧
            (fillSlots updated 0 xs staged).map Prod.fst <+: x.updateSlots := by
  have hloop := Local.foldlM_range (I := Filled updated xs staged) (fun i hi b => fillSlot_local hM hxs hi) (0, 0)
  have htake : xs.take c.maxNeighbours = xs := List.take_of_length_le hxs.le
  refine hloop.conseq (fun x hx => ⟨?_, Below.nil, Compacted.start hx.1, List.nil_prefix, hx.2⟩) fun b x hx => ?_
  · rw [List.take_zero, List.countP_nil, Nat.zero_min]
    rfl
  · obtain ⟨hsame, hbelow, hown, hslots, -⟩ := hx
    rw [htake] at hsame hbelow hown hslots
    exact ⟨⟨by rw [hsame], hbelow, fun w hw v hv => hstaged v (mem_fillSlots hw v hv)⟩, hown.kept, hslots⟩

/-- **`replace_neighbours`** in its buffers; the links it is given are as many as a list can hold. -/
theorem replaceNeighbours_matches (h2 : 2 ≤ c.M) (hM : c.M ≤ 128) (hn : node.Fits) (hfits : ∀ u ∈ updated, u.Fits)
    (hlen : updated.length ≤ c.maxNeighbours) :
    Matches c (fun _ => True) (IndexGraph.replaceNeighbours c node updated) (replaceNeighbours c node updated)
      fun a b _ => a = b := by
  refine (fetch_matches nodeBuf1_room fun _ _ _ => trivial).bind fun e h => Matches.of_fact
    (A := StoredList c e.neighbours ∧ h = header e) (fun x hx => ⟨hx.1, hx.2.1⟩) ?_
  rintro ⟨he, rfl⟩
  -- step A
  refine Matches.right ((demote_loop hM he).conseq (fun x hx => hx.2.2.1) fun _ _ h => h)
    fun num => Matches.of_fact (fun x hx => hx.1) ?_
  rintro ⟨rfl, hdemoted⟩
  set links := demoted updated e.neighbours with hlinks
  refine ((updateStaged_matches (F := fun x => e.neighbours <+: x.nodeBuf1 ∧ links.map Prod.snd <+: x.nodeBuf2 ∧
    links.map Prod.fst <+: x.updateSlots) h2 hM rfl hdemoted (fun x hx => hx.2) ⟨fun _ _ h => h, fun _ _ h => h⟩).conseq
    (fun x hx => hx.2) fun _ _ _ h => h).bind fun _ _ => ?_
  -- step B
  have hdrop := Matches.forM_range (F := fun x => e.neighbours <+: x.nodeBuf1) (f := IndexGraph.dropSlot c node updated)
    fun i o ho => dropSlot_matches h2 hM he ho
  rw [he.1] at hdrop
  refine (hdrop.conseq (fun x hx => hx.1) fun _ _ _ h => h).bind fun _ _ => ?_
  -- step C
  refine ((Matches.foldlM (I := Staged c e.neighbours) (a := ([], [])) (b := (0, [])) fun target rest a b =>
    stageLink_matches hM he target rest a b).conseq (fun x hx => ⟨rfl, by simpa using hlen, ⟨hfits, by simp⟩, by simp,
      hx, List.nil_prefix⟩) fun _ _ _ h => h).bind fun a b => Matches.of_fact
    (A := b = (a.1.length, a.2) ∧ (∀ v ∈ a.1, v.Fits) ∧ ∀ link ∈ a.2, InSlots c link)
    (fun x hx => ⟨hx.same, hx.fits.2, hx.inSlots⟩) ?_
  rintro ⟨rfl, hstaged, hpromoted⟩
  -- step D
  refine Matches.right ((fill_loop hM he.1 hstaged).conseq (fun x hx => ⟨hx.own, hx.staged⟩)
    fun _ _ h => h) fun num => Matches.of_fact (fun x hx => hx.1) ?_
  rintro ⟨hnum, hwrites⟩
  set writes := fillSlots updated 0 e.neighbours a.1 with hw
  refine ((updateStaged_matches (F := fun x => writes.map Prod.snd <+: x.nodeBuf1 ∧
    writes.map Prod.fst <+: x.updateSlots) h2 hM hnum hwrites (fun x hx => hx)
    ⟨fun _ _ h => h, fun _ _ h => h⟩).conseq (fun x hx => hx.2) fun _ _ _ h => h).bind fun _ _ => ?_
  -- step E
  refine ((Matches.forM (F := fun _ => True) fun link hlink => clearLink_matches h2 hM
    ⟨fun _ _ h => h, fun _ _ h => h, fun _ _ h => h, fun _ _ h => h⟩ (hpromoted link hlink)).conseq
    (fun _ _ => trivial) fun _ _ _ h => h).bind fun _ _ => ?_
  -- step F
  exact linkNeighboursLocked_matches h2 hM hn

end Replace

/-! ### `unlink_neighbours` -/

section Unlink

variable {F : GraphContext → Prop} {node : Node}

/-- One slot of `scanLinks`. -/
def scanStep (node : Node) (neighbour : NID) (acc : Option LinkSlot × ℕ) (w : Option Node × ℕ) : Option LinkSlot × ℕ :=
  match w.1 with
  | none => acc
  | some n =>
    if n.nid.clearIncoming == node.nid then (some ⟨neighbour, .neighbour, w.2⟩, acc.2)
    else if n.nid.incoming then acc
    else (acc.1, acc.2 + 1)

theorem scanStep_inSlots {neighbour : NID} {acc : Option LinkSlot × ℕ} {o : Option Node} {i : ℕ}
    (hi : i < c.maxNeighbours) (h : ∀ link ∈ acc.1, InSlots c link) :
    ∀ link ∈ (scanStep node neighbour acc (o, i)).1, InSlots c link := by
  rcases o with _ | n
  · exact h
  · unfold scanStep
    dsimp only
    split
    · intro link hlink
      cases hlink
      exact hi
    · split <;> exact h

theorem scanSlot_local {xs : List (Option Node)} {neighbour : NID} {acc : Option LinkSlot × ℕ} {o : Option Node}
    {i : ℕ} (ho : xs[i]? = some o) (hi : i < 2 ^ 16) :
    Local c (fun x => xs <+: x.nodeBuf2 ∧ F x) (scanSlot node neighbour acc i) fun r x =>
      r = scanStep node neighbour acc (o, i) ∧ xs <+: x.nodeBuf2 ∧ F x := by
  have hget (x : GraphContext) (hx : xs <+: x.nodeBuf2) : (Buffer.nodeBuf2.get x)[i]? = some o := prefix_getElem? hx ho
  refine (read_local fun x _ hx => (List.getElem?_eq_some_iff.mp (hget x hx.1)).1).bind fun o' => ?_
  refine Local.of_fact (A := o' = o) (fun x hx => Option.some.inj (hx.1.symm.trans (hget x hx.2.1))) ?_
  rintro rfl
  rcases o' with _ | n
  · exact Local.pure fun x hx => ⟨rfl, hx.2⟩
  · rw [scanStep]
    dsimp only
    rw [slotIndex_eq hi]
    split_ifs
    · exact Local.pure fun x hx => ⟨rfl, hx.2⟩
    · exact Local.pure fun x hx => ⟨rfl, hx.2⟩
    · exact Local.pure fun x hx => ⟨rfl, hx.2⟩

/-- The scan of a neighbour's list. -/
theorem scanLinks_local (hM : c.M ≤ 128) {xs : List (Option Node)} (hxs : xs.length = c.maxNeighbours)
    {neighbour : NID} :
    Local c (fun x => xs <+: x.nodeBuf2 ∧ F x)
      ((List.range c.maxNeighbours).foldlM (scanSlot node neighbour) (none, 0)) fun r x =>
        (r = scanLinks node neighbour xs ∧ ∀ link ∈ r.1, InSlots c link) ∧ F x := by
  have htake : xs.zipIdx.take c.maxNeighbours = xs.zipIdx :=
    List.take_of_length_le (by rw [List.length_zipIdx, hxs])
  have hloop := Local.foldlM_range (c := c) (n := c.maxNeighbours) (g := scanSlot node neighbour)
    (I := fun i acc x => (acc = (xs.zipIdx.take i).foldl (scanStep node neighbour) (none, 0) ∧
      ∀ link ∈ acc.1, InSlots c link) ∧ xs <+: x.nodeBuf2 ∧ F x) (fun i hi acc => ?_) (none, 0)
  · rw [htake] at hloop
    exact hloop.conseq (fun x hx => ⟨⟨rfl, by simp⟩, hx⟩) fun r x hx => ⟨hx.1, hx.2.2⟩
  · have hlt : i < xs.length := hxs ▸ hi
    have hsnoc : (xs.zipIdx.take (i + 1)).foldl (scanStep node neighbour) (none, 0) =
        scanStep node neighbour ((xs.zipIdx.take i).foldl (scanStep node neighbour) (none, 0)) (xs[i], i) := by
      rw [List.take_add_one, List.getElem?_zipIdx, List.getElem?_eq_getElem hlt, List.foldl_append]
      simp
    refine Local.of_fact (fun x hx => hx.1) ?_
    rintro ⟨rfl, hin⟩
    rw [hsnoc]
    exact (scanSlot_local (List.getElem?_eq_getElem hlt) (hi.trans (maxNeighbours_lt hM))).conseq (fun x hx => hx.2)
      fun r x hx => ⟨⟨hx.1, hx.1 ▸ scanStep_inSlots hi hin⟩, hx.2⟩

theorem findLink_matches (hM : c.M ≤ 128) (hbuf : Closed Buffer.incomingBuf2 F) {overflow : Option NID} :
    ∀ {r : Option LinkSlot}, (∀ link ∈ r, InSlots c link) →
      Matches c F (IndexGraph.findLink node overflow r) (findLink c node overflow r) fun r r' x =>
        (r = r' ∧ ∀ link ∈ r, InSlots c link) ∧ F x
  | some _, h => Matches.pure fun _ hx => ⟨⟨rfl, h⟩, hx⟩
  | none, _ => findOverflowLink_matches hM hbuf

/-- The link of one neighbour. -/
theorem unlinkNeighbour_matches (h2 : 2 ≤ c.M) (hM : c.M ≤ 128) (hF : Unread F) (hnodes : Closed Buffer.nodeBuf2 F)
    (hids : Closed Buffer.incomingBuf2 F) {neighbour : NID} :
    Matches c F (IndexGraph.unlinkNeighbour node neighbour) (unlinkNeighbour c node neighbour)
      fun a b x => a = b ∧ F x := by
  refine (attempt_fetch_matches nodeBuf2_room hnodes).bind fun r r' => Matches.after_attempt
    (fun e hr hr' => ?_) fun e h hr hr' he => ?_
  · subst hr hr'
    exact Matches.pure fun x hx => ⟨rfl, hx⟩
  subst hr hr'
  refine Matches.of_fact (fun x hx => hx.1) ?_
  rintro rfl
  refine Matches.right ((scanLinks_local hM he.1).conseq
    (fun x hx => hx.2) fun _ _ h => h) fun r => Matches.of_fact (fun x hx => hx.1) ?_
  rintro ⟨rfl, hin⟩
  refine Matches.bind ((findLink_matches hM hids hin).conseq (fun x hx => hx.2) fun _ _ _ h => h) fun found found' =>
    Matches.of_fact (fun x hx => hx.1) ?_
  rintro ⟨rfl, hfound⟩
  refine Matches.bind ((clearFound_matches h2 hM hF hfound).conseq (fun x hx => hx.2) fun _ _ _ h => h)
    fun severed severed' => Matches.of_fact (fun x hx => hx.1) ?_
  rintro rfl
  exact Matches.pure fun x hx => ⟨rfl, hx.2⟩

/-- A buffer that a walk keeps its list in while it severs links. -/
structure OwnList (b : Buffer (Option α)) : Prop where
  unread : ∀ G : List (Option α) → List ℕ → Prop, Unread fun x => G (b.get x) x.linkSlots
  nodeBuf2 : ∀ G : List (Option α) → List ℕ → Prop, Closed Buffer.nodeBuf2 fun x => G (b.get x) x.linkSlots
  incomingBuf2 : ∀ G : List (Option α) → List ℕ → Prop, Closed Buffer.incomingBuf2 fun x => G (b.get x) x.linkSlots
  linkSlots : ∀ G : List (Option α) → Prop, Closed Buffer.linkSlots fun x => G (b.get x)
  own : ∀ G : List ℕ → Prop, Closed b fun x => G x.linkSlots

theorem ownList_nodeBuf1 : OwnList Buffer.nodeBuf1 :=
  ⟨fun _ => ⟨fun _ _ h => h, fun _ _ h => h, fun _ _ h => h, fun _ _ h => h⟩, fun _ _ _ h => h, fun _ _ _ h => h,
    fun _ _ _ h => h, fun _ _ _ h => h⟩

theorem ownList_incomingBuf1 : OwnList Buffer.incomingBuf1 :=
  ⟨fun _ => ⟨fun _ _ h => h, fun _ _ h => h, fun _ _ h => h, fun _ _ h => h⟩, fun _ _ _ h => h, fun _ _ _ h => h,
    fun _ _ _ h => h, fun _ _ _ h => h⟩

/-- The links that a walk compacts, with their slots. -/
def taken (flag : α → α) (ws : List (Option α × ℕ)) : List (ℕ × α) :=
  ws.filterMap fun w => w.1.map fun n => (w.2, flag n)

theorem taken_snoc {flag : α → α} {xs : List (Option α)} {i : ℕ} {o : Option α} (ho : xs[i]? = some o) :
    taken flag (xs.zipIdx.take (i + 1)) = taken flag (xs.zipIdx.take i) ++ (o.map fun n => (i, flag n)).toList := by
  rw [List.take_add_one, List.getElem?_zipIdx, ho, taken, List.filterMap_append]
  cases o <;> simp [taken]

/-- **The compaction of a list** in its own buffer. -/
theorem compact_loop {b : Buffer (Option α)} (hb : OwnList b) {flag : α → α} {xs : List (Option α)} {n : ℕ}
    (hn : xs.length = n) (hle : n ≤ 2 * c.M) (hlt : n < 2 ^ 16) :
    Local c (fun x => xs <+: b.get x) ((List.range n).foldlM (compactSlot b flag) 0) fun num x =>
      (num = (taken flag xs.zipIdx).length ∧ Below n ((taken flag xs.zipIdx).map Prod.fst)) ∧
        (taken flag xs.zipIdx).map (fun l => some l.2) <+: b.get x ∧
          (taken flag xs.zipIdx).map Prod.fst <+: x.linkSlots := by
  have htake : xs.zipIdx.take n = xs.zipIdx := List.take_of_length_le (by rw [List.length_zipIdx, hn])
  have hloop := Local.foldlM_range (c := c) (n := n) (g := compactSlot b flag)
    (I := fun i num x => (num = (taken flag (xs.zipIdx.take i)).length ∧
      Below i ((taken flag (xs.zipIdx.take i)).map Prod.fst)) ∧
      Compacted xs i ((taken flag (xs.zipIdx.take i)).map fun l => some l.2) (b.get x) ∧
        (taken flag (xs.zipIdx.take i)).map Prod.fst <+: x.linkSlots) (fun i hi num => ?_) 0
  · rw [htake] at hloop
    exact hloop.conseq (fun x hx => ⟨⟨rfl, Below.nil⟩, Compacted.start hx, List.nil_prefix⟩)
      fun num x hx => ⟨hx.1, hx.2.1.kept, hx.2.2⟩
  · have hi' : i < xs.length := hn ▸ hi
    have ho : xs[i]? = some xs[i] := List.getElem?_eq_getElem hi'
    refine Local.of_fact (fun x hx => hx.1) ?_
    rintro ⟨rfl, hbelow⟩
    rw [taken_snoc ho]
    refine (readOwn_local ho fun x hx => hx.2.1).bind fun o => Local.of_fact (fun x hx => hx.1) ?_
    rintro rfl
    rcases ho' : xs[i] with _ | n'
    · rw [Option.map_none, Option.toList_none, List.append_nil]
      exact Local.pure fun x hx => ⟨⟨rfl, hbelow.skip⟩, hx.2.2.1.skip, hx.2.2.2⟩
    · have hlen := hbelow.length_le
      rw [Option.map_some, Option.toList_some, List.map_append, List.map_append, List.length_append]
      refine Local.bind ((compact_local (F := fun x => (taken flag (xs.zipIdx.take i)).map Prod.fst <+: x.linkSlots)
        (hb.own _) hi' (by rw [List.length_map])).conseq (fun x hx => ⟨hx.2.2.1, hx.2.2.2⟩) fun _ _ h => h) fun _ => ?_
      rw [slotIndex_eq (hi.trans hlt)]
      refine Local.bind ((append_local (b := Buffer.linkSlots) (hb.linkSlots _) (by rw [List.length_map]) fun x hx => ?_).conseq
        (fun x hx => ⟨hx.2, hx.1⟩) fun _ _ h => h) fun _ => Local.pure fun x hx => ⟨⟨rfl, hbelow.push⟩, hx.2, hx.1⟩
      rw [show Buffer.linkSlots.get x = x.linkSlots from rfl, hx.lengths.2.2.2.1]
      omega

/-- Between two links of the walk that severs them: `a.1` are the slots to free. -/
structure Severed (L : List (ℕ × α)) (own : Buffer (Option α)) (i : ℕ) (a : List ℕ × List Node) (b : ℕ × List Node)
    (x : GraphContext) : Prop where
  same : b = (a.1.length, a.2)
  own : Compacted (L.map fun l => some l.2) i (List.replicate a.1.length none) (own.get x)
  slots : Compacted (L.map Prod.fst) i a.1 x.linkSlots
  sub : a.1.Sublist ((L.map Prod.fst).take i)

theorem unlinkLink_matches (h2 : 2 ≤ c.M) (hM : c.M ≤ 128) {own : Buffer (Option α)} (hown : OwnList own)
    {nid : α → NID} {L : List (ℕ × α)} {i : ℕ} {l : ℕ × α} (hl : L[i]? = some l) (a : List ℕ × List Node)
    (b : ℕ × List Node) :
    Matches c (Severed L own i a b) (IndexGraph.unlinkLink c node a (l.1, nid l.2)) (unlinkLink c own nid node b i)
      (Severed L own (i + 1)) := by
  have hlt : i < L.length := (List.getElem?_eq_some_iff.mp hl).1
  have hvalue : (L.map fun l => some l.2)[i]? = some (some l.2) := by rw [List.getElem?_map, hl]; rfl
  have hslot : (L.map Prod.fst)[i]? = some l.1 := by rw [List.getElem?_map, hl]; rfl
  have htake : (L.map Prod.fst).take (i + 1) = (L.map Prod.fst).take i ++ [l.1] := by
    rw [List.take_add_one, hslot]
    rfl
  refine Matches.of_fact (A := b = (a.1.length, a.2) ∧ a.1.Sublist ((L.map Prod.fst).take i))
    (fun x hx => ⟨hx.same, hx.sub⟩) ?_
  rintro ⟨rfl, hsub⟩
  refine Matches.right (readOwn_local hvalue fun x hx => hx.own) fun o => Matches.of_fact (fun x hx => hx.1) ?_
  rintro rfl
  refine Matches.bind ((unlinkNeighbour_matches (F := fun x => Compacted (L.map fun l => some l.2) i
    (List.replicate a.1.length none) (own.get x) ∧ Compacted (L.map Prod.fst) i a.1 x.linkSlots) h2 hM
    (hown.unread fun u v => Compacted (L.map fun l => some l.2) i (List.replicate a.1.length none) u ∧
      Compacted (L.map Prod.fst) i a.1 v)
    (hown.nodeBuf2 fun u v => Compacted (L.map fun l => some l.2) i (List.replicate a.1.length none) u ∧
      Compacted (L.map Prod.fst) i a.1 v)
    (hown.incomingBuf2 fun u v => Compacted (L.map fun l => some l.2) i (List.replicate a.1.length none) u ∧
      Compacted (L.map Prod.fst) i a.1 v)).conseq (fun x hx => ⟨hx.2.own, hx.2.slots⟩) fun _ _ _ h => h) fun r r' =>
    Matches.of_fact (fun x hx => hx.1) ?_
  rintro rfl
  obtain ⟨neighbour, orphan⟩ := r
  dsimp only
  cases orphan with
  | true =>
    exact Matches.pure fun x hx => ⟨rfl, hx.2.1.skip, hx.2.2.skip,
      hsub.trans (htake ▸ List.sublist_append_left _ _)⟩
  | false =>
    rw [if_neg Bool.false_ne_true, if_neg Bool.false_ne_true]
    refine Matches.right (readOwn_local (b := Buffer.linkSlots) hslot fun x hx => hx.2.2) fun slot =>
      Matches.of_fact (fun x hx => hx.1) ?_
    rintro rfl
    refine Matches.right ((compact_local (b := Buffer.linkSlots) (F := fun x => Compacted (L.map fun l => some l.2) i
      (List.replicate a.1.length none) (own.get x)) (hown.linkSlots _) (by rwa [List.length_map]) rfl).conseq
      (fun x hx => ⟨hx.2.2.2, hx.2.2.1⟩) fun _ _ h => h) fun _ => ?_
    refine Matches.right ((compact_local (F := fun x => Compacted (L.map Prod.fst) (i + 1) (a.1 ++ [l.1]) x.linkSlots)
      (hown.own _) (by rwa [List.length_map]) List.length_replicate.symm).conseq (fun x hx => ⟨hx.2, hx.1⟩)
      fun _ _ h => h) fun _ => Matches.pure fun x hx => ?_
    have hfree : List.replicate a.1.length (none : Option α) ++ [none] = List.replicate (a.1.length + 1) none :=
      List.replicate_succ'.symm
    refine ⟨by cases neighbour <;> simp, ?_, hx.2, htake ▸ hsub.append (List.Sublist.refl _)⟩
    rw [List.length_append, List.length_singleton, ← hfree]
    exact hx.1

/-- **The walk along links that stand in a buffer.** -/
theorem unlinkLinks_matches (h2 : 2 ≤ c.M) (hM : c.M ≤ 128) {own : Buffer (Option α)} (hown : OwnList own)
    {nid : α → NID} {L : List (ℕ × α)} {n : ℕ} (hL : Below n (L.map Prod.fst)) (out : List Node) :
    Matches c (fun x => L.map (fun l => some l.2) <+: own.get x ∧ L.map Prod.fst <+: x.linkSlots)
      ((L.map fun l => (l.1, nid l.2)).foldlM (IndexGraph.unlinkLink c node) ([], out))
      ((List.range L.length).foldlM (unlinkLink c own nid node) (0, out)) fun a b x =>
        (b = (a.1.length, a.2) ∧ Below n a.1) ∧ List.replicate a.1.length none <+: own.get x ∧ a.1 <+: x.linkSlots := by
  rw [List.foldlM_map]
  refine (Matches.foldlM_range (I := Severed L own) (fun i l hl a b => unlinkLink_matches h2 hM hown hl a b)
    ([], out) (0, out)).conseq (fun x hx => ⟨rfl, Compacted.start hx.1, Compacted.start hx.2, List.nil_sublist _⟩)
    fun a b x hx => ⟨⟨hx.same, hL.sublist (hx.sub.trans (List.take_sublist _ _))⟩, hx.own.kept, hx.slots.kept⟩

theorem updateFreed_matches (hM : c.M ≤ 128) {cur : NID} {freed : List ℕ} (hfreed : Below c.overflowCapacity freed)
    (hsp : ∀ x, F x → List.replicate freed.length none <+: x.incomingBuf1 ∧ freed <+: x.linkSlots)
    (hF : Writes Buffer.overflowBuf F) :
    Matches c F (IndexGraph.updateIncoming cur (freed.map fun slot => (slot, none))) (updateFreed c cur freed.length)
      fun _ _ => F := by
  have hfst : (freed.map fun slot => (slot, (none : Option NID))).map Prod.fst = freed := by simp [Function.comp_def]
  have hsnd : (freed.map fun slot => (slot, (none : Option NID))).map Prod.snd = List.replicate freed.length none := by
    simp [Function.comp_def, List.map_const']
  rcases freed with _ | ⟨slot, freed⟩
  · exact Matches.pure fun _ hx => hx
  · rw [updateFreed, if_neg (by simp)]
    refine updateIncoming_matches hM (by simp) ⟨hfst.symm ▸ hfreed, by simp⟩ (fun x hx => ?_) hF
    rw [hfst, hsnd]
    exact ⟨⟨by simp, (hsp x hx).1⟩, (hsp x hx).2⟩

theorem unlinkChain_matches (h2 : 2 ≤ c.M) (hM : c.M ≤ 128) : ∀ {fuel : ℕ} {cur : Option NID} {out : List Node},
    Matches c (fun _ => True) (IndexGraph.unlinkChain c node fuel cur out) (unlinkChain c node fuel cur out)
      fun a b _ => a = b
  | fuel, none, out => by
    rw [IndexGraph.unlinkChain, unlinkChain]
    exact Matches.pure fun _ _ => rfl
  | 0, some _, _ => by
    rw [IndexGraph.unlinkChain, unlinkChain]
    exact Matches.fail
  | fuel + 1, some cur, out => by
    rw [IndexGraph.unlinkChain, unlinkChain]
    refine (fetchOverflow_matches incomingBuf1_room fun _ _ _ => trivial).bind fun e next => Matches.of_fact
      (A := e.incoming.length = c.overflowCapacity ∧ next = e.overflow) (fun x hx => ⟨hx.1, hx.2.1⟩) ?_
    rintro ⟨hlen, rfl⟩
    refine Matches.right ((compact_loop ownList_incomingBuf1 hlen overflowCapacity_le (overflowCapacity_lt hM)).conseq
      (fun x hx => hx.2.2.1) fun _ _ h => h) fun num => Matches.of_fact (fun x hx => hx.1) ?_
    rintro ⟨rfl, hbelow⟩
    have hlinks : incomingLinks e.incoming = (taken id e.incoming.zipIdx).map fun l => (l.1, id l.2) :=
      (List.map_id (taken id e.incoming.zipIdx)).symm
    rw [hlinks]
    refine ((unlinkLinks_matches h2 hM ownList_incomingBuf1 hbelow out).conseq (fun x hx => hx.2) fun _ _ _ h => h).bind
      fun a b => Matches.of_fact (fun x hx => hx.1) ?_
    rintro ⟨rfl, hfreed⟩
    refine ((updateFreed_matches (F := fun x => List.replicate a.1.length none <+: x.incomingBuf1 ∧ a.1 <+: x.linkSlots)
      hM hfreed (fun x hx => hx) ⟨fun _ _ h => h, fun _ _ h => h⟩).conseq (fun x hx => hx.2) fun _ _ _ h => h).bind
      fun _ _ => (unlinkChain_matches h2 hM).conseq (fun _ _ => trivial) fun _ _ _ h => h

/-- **`unlink_neighbours`** in its buffers. -/
theorem unlinkNeighbours_matches (h2 : 2 ≤ c.M) (hM : c.M ≤ 128) :
    Matches c (fun _ => True) (IndexGraph.unlinkNeighbours c node) (unlinkNeighbours c node) fun a b _ => a = b := by
  refine (fetch_matches nodeBuf1_room fun _ _ _ => trivial).bind fun e h => Matches.of_fact
    (A := StoredList c e.neighbours ∧ h = header e) (fun x hx => ⟨hx.1, hx.2.1⟩) ?_
  rintro ⟨he, rfl⟩
  set L := flaggedLinks e.neighbours with hL
  have hloop : Local c (fun x => e.neighbours <+: x.nodeBuf1)
      ((List.range c.maxNeighbours).foldlM (compactSlot Buffer.nodeBuf1 fun n => ⟨n.nid.setIncoming, n.vid⟩) 0)
      fun num x => (num = L.length ∧ Below c.maxNeighbours (L.map Prod.fst)) ∧
        L.map (fun l => some l.2) <+: x.nodeBuf1 ∧ L.map Prod.fst <+: x.linkSlots :=
    compact_loop ownList_nodeBuf1 he.1 maxNeighbours_le (maxNeighbours_lt hM)
  refine Matches.right (hloop.conseq (fun x hx => hx.2.2.1) fun _ _ h => h) fun num =>
    Matches.of_fact (fun x hx => hx.1) ?_
  rintro ⟨rfl, hbelow⟩
  -- every link, flagged incoming
  have hfst : (L.map fun l => (l.1, some l.2)).map Prod.fst = L.map Prod.fst := by simp [Function.comp_def]
  have hsnd : (L.map fun l => (l.1, some l.2)).map Prod.snd = L.map fun l => some l.2 := by simp [Function.comp_def]
  have hfits : ∀ w ∈ L.map (fun l => (l.1, some l.2)), ∀ v ∈ w.2, v.Fits := by
    intro w hw v hv
    obtain ⟨l, hl, rfl⟩ := List.mem_map.mp hw
    obtain rfl : l.2 = v := Option.some.inj hv
    obtain ⟨⟨o, i⟩, ho, hmap⟩ := List.mem_filterMap.mp hl
    obtain ⟨n, rfl, rfl⟩ := Option.map_eq_some_iff.mp hmap
    exact he.2 _ (List.fst_mem_of_mem_zipIdx ho) n rfl
  refine ((updateStaged_matches (F := fun x => L.map (fun l : ℕ × Node => some l.2) <+: x.nodeBuf1 ∧
    L.map Prod.fst <+: x.linkSlots) h2 hM (List.length_map _).symm ⟨hfst.symm ▸ hbelow, hfits⟩
    (fun x hx => by rw [hfst, hsnd]; exact hx) ⟨fun _ _ h => h, fun _ _ h => h⟩).conseq (fun x hx => hx.2)
    fun _ _ _ h => h).bind fun _ _ => ?_
  -- the far sides
  refine (unlinkLinks_matches h2 hM ownList_nodeBuf1 hbelow []).bind fun a b => Matches.of_fact (fun x hx => hx.1) ?_
  rintro ⟨rfl, hfreed⟩
  have hfst' : (a.1.map fun slot => (slot, (none : Option Node))).map Prod.fst = a.1 := by simp [Function.comp_def]
  have hsnd' : (a.1.map fun slot => (slot, (none : Option Node))).map Prod.snd = List.replicate a.1.length none := by
    simp [Function.comp_def, List.map_const']
  refine ((updateStaged_matches (F := fun x => List.replicate a.1.length none <+: x.nodeBuf1 ∧ a.1 <+: x.linkSlots)
    h2 hM (List.length_map _).symm ⟨hfst'.symm ▸ hfreed, by simp⟩ (fun x hx => by rw [hfst', hsnd']; exact hx)
    ⟨fun _ _ h => h, fun _ _ h => h⟩).conseq (fun x hx => hx.2) fun _ _ _ h => h).bind fun _ _ => ?_
  refine (Matches.lift Stored.chainFuel).bind fun fuel fuel' => Matches.of_fact (fun x hx => hx.1.1) ?_
  rintro rfl
  exact (unlinkChain_matches h2 hM).conseq (fun _ _ => trivial) fun _ _ _ h => h

end Unlink

/-! ### The three operations -/

/-- From the records `s` and buffers that hold `x` the program with the buffers does
what `p` does: it has the same outcome and leaves the same records. The outcomes of
the storage calls are part of `s`, so that a run may end at any of them: the calls
are the same one by one. -/
structure Same (c : LevelCtx) (p : LevelProg α) (m : ScratchProg α) (s : LevelState) (x : GraphContext) : Prop where
  result : (m ⟨s, x, [], []⟩).1 = (p s).1
  records : (m ⟨s, x, [], []⟩).2.toLevelState = (p s).2
  inside : ∀ a ∈ (m ⟨s, x, [], []⟩).2.accesses, a.1 < a.2
  ascending : ∀ l ∈ (m ⟨s, x, [], []⟩).2.slotLists, l.Pairwise (· < ·)
  stored : Stored c (p s).2
  sized : Sized c.M (m ⟨s, x, [], []⟩).2.ctx

theorem Matches.same {p : LevelProg α} {m : ScratchProg α} (h : Matches c (fun _ => True) p m fun a b _ => a = b)
    {s : LevelState} (hs : Stored c s) {x : GraphContext} (hx : Sized c.M x) : Same c p m s x := by
  have hrun := h s ⟨s, x, [], []⟩ ⟨rfl, hx, by simp, by simp, hs, trivial⟩
  rw [Computes] at hrun
  rcases hp : p s with ⟨e | a, s'⟩ <;> rcases hm : m ⟨s, x, [], []⟩ with ⟨e' | b, t'⟩ <;> rw [hp, hm] at hrun
  · obtain ⟨rfl, ht⟩ := hrun
    refine ⟨?_, ?_, ?_, ?_, ?_, ?_⟩ <;> simp only [hp, hm]
    exacts [ht.same, ht.inside, ht.ascending, ht.stored, ht.sized]
  · exact hrun.elim
  · exact hrun.elim
  · have hab : a = b := hrun.holds
    refine ⟨?_, ?_, ?_, ?_, ?_, ?_⟩ <;> simp only [hp, hm, hab]
    exacts [hrun.same, hrun.inside, hrun.ascending, hrun.stored, hrun.sized]

/-- **The scratch buffers**, of the sizes of `make_graph_context` and with anything in
them. `Options::validate` has checked `M`, and a list handed to `replace_neighbours`
is no longer than that of a node. -/
theorem scratch_buffers (h2 : 2 ≤ c.M) (hM : c.M ≤ 128) {s : LevelState} (hs : Stored c s) {x : GraphContext}
    (hx : Sized c.M x) {node : Node} (hn : node.Fits) {updated : List Node} (hu : ∀ u ∈ updated, u.Fits)
    (hlen : updated.length ≤ c.maxNeighbours) :
    Same c (IndexGraph.linkNeighboursLocked c node) (linkNeighboursLocked c node) s x ∧
      Same c (IndexGraph.replaceNeighbours c node updated) (replaceNeighbours c node updated) s x ∧
        Same c (IndexGraph.unlinkNeighbours c node) (unlinkNeighbours c node) s x :=
  ⟨(linkNeighboursLocked_matches h2 hM hn).same hs hx, (replaceNeighbours_matches h2 hM hn hu hlen).same hs hx,
    (unlinkNeighbours_matches h2 hM).same hs hx⟩

/-- The node 30 has its links flagged; its neighbour 10 has no room, its neighbour 20 has. -/
def threeNodes : LevelState where
  nodes := [(10, [some ⟨⟨20, false⟩, 2⟩, some ⟨⟨40, false⟩, 4⟩]), (20, [some ⟨⟨10, false⟩, 1⟩, none]),
    (30, [some ⟨⟨10, true⟩, 1⟩, some ⟨⟨20, true⟩, 2⟩])].foldl
      (fun t (ref, neighbours) => t.insert ref ⟨7, false, ⟨ref / 10, none, neighbours, none⟩⟩) ∅
  overflows := ∅
  outcomes := []
  refs := [50]

theorem threeNodes_stored : Stored ⟨1, 2, 7⟩ threeNodes where
  slots a r hr := by
    have hall : ∀ w ∈ threeNodes.nodes.entries, w.2.entry.neighbours.length = 2 ∧
        ∀ o ∈ w.2.entry.neighbours, ∀ n ∈ o, n.Fits := by decide +kernel
    exact hall ⟨a, r⟩ (AList.mem_lookup_iff.mp hr)
  cells o q hq := by cases hq
  refs := by decide +kernel

theorem scratch_buffers_threeNodes :
    (Same ⟨1, 2, 7⟩ (IndexGraph.linkNeighboursLocked ⟨1, 2, 7⟩ ⟨⟨30, false⟩, 3⟩)
        (linkNeighboursLocked ⟨1, 2, 7⟩ ⟨⟨30, false⟩, 3⟩) threeNodes (makeGraphContext 2) ∧
      Same ⟨1, 2, 7⟩ (IndexGraph.replaceNeighbours ⟨1, 2, 7⟩ ⟨⟨30, false⟩, 3⟩ [⟨⟨20, false⟩, 2⟩])
        (replaceNeighbours ⟨1, 2, 7⟩ ⟨⟨30, false⟩, 3⟩ [⟨⟨20, false⟩, 2⟩]) threeNodes (makeGraphContext 2) ∧
      Same ⟨1, 2, 7⟩ (IndexGraph.unlinkNeighbours ⟨1, 2, 7⟩ ⟨⟨30, false⟩, 3⟩)
        (unlinkNeighbours ⟨1, 2, 7⟩ ⟨⟨30, false⟩, 3⟩) threeNodes (makeGraphContext 2)) ∧
      (linkNeighboursLocked ⟨1, 2, 7⟩ ⟨⟨30, false⟩, 3⟩ ⟨threeNodes, makeGraphContext 2, [], []⟩).1 =
        .ok [⟨⟨10, false⟩, 1⟩] :=
  ⟨scratch_buffers (by decide) (by decide) threeNodes_stored rfl (by decide) (by decide) (by decide), by decide +kernel⟩

end Scratch

end Hnsw
end VsqlVector
