/-
# The storage calls, whatever becomes of them

What the storage calls of a level do to its records when any of them may fail,
before its work or after it. A read leaves the records as they are, and so does
a call that is refused.

Key definition: `LevelProg.Over`.
Key theorems: `fetch_triple`, `update_triple`, `insert_triple`, `remove_triple`.
-/
import VsqlVector.Lib.Triple
import VsqlVector.Index.Records

namespace VsqlVector
namespace Hnsw

open LevelStore Prog

namespace LevelProg

/-- A property of the records, as one of the state. -/
def Over (I : LevelStore → Prop) : LevelState → Prop := fun s => I s.toLevelStore

variable {α : Type} {I J E : LevelStore → Prop} {c : LevelCtx} {nid : NID}

/-- A property of the one store that the state has. -/
theorem Over.of_eq {s : LevelState} {t : LevelStore} (hs : Over (· = t) s) (h : I t) : Over I s := by
  have hs : s.toLevelStore = t := hs
  rw [Over, hs]
  exact h

theorem load_triple : Triple (Over I) load (fun _ => Over I) (Over I) := by
  refine fun s hs => ⟨fun a s' hrun => ?_, fun e s' hrun => ?_⟩
  all_goals
    unfold load at hrun
    split at hrun
    all_goals
      obtain ⟨-, rfl⟩ := Prod.mk.inj hrun
      exact hs

/-- A call that can fail before and after its work. -/
theorem storageCall_triple {p : LevelProg α} {Q : α → LevelState → Prop} (hp : Triple (Over I) p Q (Over E))
    (hI : ∀ t, I t → E t) (hQ : ∀ a s, Q a s → Over E s) : Triple (Over I) (storageCall p) Q (Over E) := by
  have hserve (s : LevelState) (os : List Outcome) (hs : Over I s) : Over I { s with outcomes := os } := hs
  refine fun s hs => ⟨fun a s' hrun => ?_, fun e s' hrun => ?_⟩
  · unfold storageCall at hrun
    split at hrun
    · exact (hp s hs).1 a s' hrun
    · exact (hp _ (hserve s _ hs)).1 a s' hrun
    · cases (Prod.mk.inj hrun).1
    · cases (Prod.mk.inj hrun).1
  · unfold storageCall at hrun
    split at hrun
    · exact (hp s hs).2 e s' hrun
    · exact (hp _ (hserve s _ hs)).2 e s' hrun
    · obtain ⟨-, rfl⟩ := Prod.mk.inj hrun
      exact hI _ (hserve s _ hs)
    · -- the work is done, the call fails all the same
      rename_i e' os _
      obtain ⟨-, rfl⟩ := Prod.mk.inj hrun
      rcases hwork : p { s with outcomes := os } with ⟨e'' | a, s''⟩
      · exact (hp _ (hserve s os hs)).2 e'' s'' hwork
      · exact hQ a s'' ((hp _ (hserve s os hs)).1 a s'' hwork)

theorem fetch_triple (nid : NID) :
    Triple (Over I) (fetch nid) (fun e => Over fun t => I t ∧ t.entry nid.ref = some e) (Over I) := by
  refine load_triple.bind fun _ => Triple.get.bind fun t => ?_
  refine Triple.ofOption (fun e he s hs => ?_) fun s hs => hs.2
  obtain ⟨rfl, hI⟩ := hs
  exact ⟨hI, he⟩

theorem fetchOverflow_triple (nid : NID) :
    Triple (Over I) (fetchOverflow nid)
      (fun e => Over fun t => I t ∧ ∃ q, t.overflows.lookup nid.ref = some q ∧ q.entry = e) (Over I) := by
  refine load_triple.bind fun _ => Triple.get.bind fun t => ?_
  refine Triple.ofOption (fun e he s hs => ?_) fun s hs => hs.2
  obtain ⟨rfl, hI⟩ := hs
  exact ⟨hI, Option.map_eq_some_iff.mp he⟩

theorem update_triple {f : NeighbourEntry → NeighbourEntry}
    (h : ∀ t r, I t → t.nodes.lookup nid.ref = some r →
      J { t with nodes := t.nodes.insert nid.ref { r with entry := f r.entry } }) :
    Triple (Over I) (update nid f) (fun _ => Over J) (Over I) := by
  refine load_triple.bind fun _ => Triple.get.bind fun t => ?_
  refine Triple.bind (Q := fun r s => Over I s ∧ s.nodes.lookup nid.ref = some r)
    (Triple.ofOption (fun r hr s hs => ?_) fun s hs => hs.2) fun r => Triple.modify fun s hs => h _ r hs.1 hs.2
  obtain ⟨rfl, hI⟩ := hs
  exact ⟨hI, hr⟩

theorem updateOverflow_triple {f : OverflowEntry → OverflowEntry}
    (h : ∀ t q, I t → t.overflows.lookup nid.ref = some q →
      J { t with overflows := t.overflows.insert nid.ref { q with entry := f q.entry } }) :
    Triple (Over I) (updateOverflow nid f) (fun _ => Over J) (Over I) := by
  refine load_triple.bind fun _ => Triple.get.bind fun t => ?_
  refine Triple.bind (Q := fun q s => Over I s ∧ s.overflows.lookup nid.ref = some q)
    (Triple.ofOption (fun q hq s hs => ?_) fun s hs => hs.2) fun q => Triple.modify fun s hs => h _ q hs.1 hs.2
  obtain ⟨rfl, hI⟩ := hs
  exact ⟨hI, hq⟩

/-- A new record, at a reference that was free. -/
theorem insert_triple {K : NID → LevelStore → Prop} {e : NeighbourEntry}
    (h : ∀ t r, I t → t.nodes.lookup r = none → K ⟨r, false⟩ { t with
      nodes := t.nodes.insert r ⟨c.trxRef, false, { e with neighbours := padSlots c.maxNeighbours e.neighbours }⟩ })
    (hI : ∀ t, I t → E t) (hK : ∀ n t, K n t → E t) :
    Triple (Over I) (insert c e) (fun n => Over (K n)) (Over E) := by
  refine storageCall_triple (fun s hs => ⟨fun n s' hrun => ?_, fun e' s' hrun => ?_⟩) hI fun n s hs => hK n _ hs
  · unfold place at hrun
    split at hrun
    · cases (Prod.mk.inj hrun).1
    · split at hrun
      · rename_i hfree
        obtain ⟨hn, rfl⟩ := Prod.mk.inj hrun
        cases hn
        exact h _ _ hs hfree.2
      · cases (Prod.mk.inj hrun).1
  · unfold place at hrun
    split at hrun
    · obtain ⟨-, rfl⟩ := Prod.mk.inj hrun
      exact hI _ hs
    · split at hrun
      · cases (Prod.mk.inj hrun).1
      · obtain ⟨-, rfl⟩ := Prod.mk.inj hrun
        exact hI _ hs

theorem insertOverflow_triple {K : NID → LevelStore → Prop} {e : OverflowEntry}
    (h : ∀ t r, I t → t.overflows.lookup r = none → K ⟨r, false⟩ { t with
      overflows := t.overflows.insert r ⟨c.trxRef, false, { e with incoming := padSlots c.overflowCapacity e.incoming }⟩ })
    (hI : ∀ t, I t → E t) (hK : ∀ n t, K n t → E t) :
    Triple (Over I) (insertOverflow c e) (fun n => Over (K n)) (Over E) := by
  refine storageCall_triple (fun s hs => ⟨fun n s' hrun => ?_, fun e' s' hrun => ?_⟩) hI fun n s hs => hK n _ hs
  · unfold placeOverflow at hrun
    split at hrun
    · cases (Prod.mk.inj hrun).1
    · split at hrun
      · rename_i hfree
        obtain ⟨hn, rfl⟩ := Prod.mk.inj hrun
        cases hn
        exact h _ _ hs hfree.2
      · cases (Prod.mk.inj hrun).1
  · unfold placeOverflow at hrun
    split at hrun
    · obtain ⟨-, rfl⟩ := Prod.mk.inj hrun
      exact hI _ hs
    · split at hrun
      · cases (Prod.mk.inj hrun).1
      · obtain ⟨-, rfl⟩ := Prod.mk.inj hrun
        exact hI _ hs

theorem modify_triple {f : LevelState → LevelState} (h : ∀ s, Over I s → Over J (f s)) :
    Triple (Over I) (Prog.modify f : LevelProg Unit) (fun _ => Over J) (Over E) := Triple.modify h

/-- A record freed, or left as it is for a transaction that may not free it. -/
theorem removeNode_triple (hsame : ∀ t, I t → J t) (h : ∀ t, I t → J { t with nodes := t.nodes.erase nid.ref })
    (hE : ∀ t, J t → E t) : Triple (Over I) (remove c nid .neighbour) (fun _ => Over J) (Over E) := by
  refine storageCall_triple (Triple.modify fun s hs => ?_) (fun t ht => hE t (hsame t ht)) fun _ s hs => hE _ hs
  split
  · exact h _ hs
  · exact hsame _ hs

theorem removeOverflow_triple (hsame : ∀ t, I t → J t)
    (h : ∀ t, I t → J { t with overflows := t.overflows.erase nid.ref })
    (hE : ∀ t, J t → E t) : Triple (Over I) (remove c nid .overflow) (fun _ => Over J) (Over E) := by
  refine storageCall_triple (Triple.modify fun s hs => ?_) (fun t ht => hE t (hsame t ht)) fun _ s hs => hE _ hs
  split
  · exact h _ hs
  · exact hsame _ hs

end LevelProg

end Hnsw
end VsqlVector
