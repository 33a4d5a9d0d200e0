import Mathlib.Data.List.Nodup
import ClauseLearning.Logic.NormalForm
import ClauseLearning.Logic.Semantics
import ClauseLearning.Proofs.ClauseWatches

/-! Clauses in normal form. Insertion keeps a list strictly increasing, so a
normal form has no literal twice, and complementary literals, whose codes differ
by one, are neighbors; without complementary literals it has no variable twice,
which is what the clause store asks of every clause. -/
namespace ClauseLearning

namespace SortedSet

variable {before : α → α → Bool}

theorem insert_pairwise (x : α) (xs : List α)
    (connected : ∀ a b, before a b = false → before b a = false → a = b)
    (transitive : ∀ a b c, before a b = true → before b c = true → before a c = true)
    (ordered : xs.Pairwise (before · · = true)) :
    (insert before x xs).Pairwise (before · · = true) := by
  fun_induction insert before x xs with
  | case1 => simp
  | case2 y rest first =>
    refine List.pairwise_cons.mpr ⟨fun z member => ?_, ordered⟩
    rcases List.mem_cons.mp member with rfl | member
    · exact first
    · exact transitive x y z first ((List.pairwise_cons.mp ordered).1 z member)
  | case3 y rest _ later ih =>
    obtain ⟨ahead, ordered⟩ := List.pairwise_cons.mp ordered
    refine List.pairwise_cons.mpr ⟨fun z member => ?_, ih ordered⟩
    rcases (mem_insert connected).mp member with rfl | member
    · exact later
    · exact ahead z member
  | case4 => exact ordered

theorem ofList_pairwise (xs : List α)
    (connected : ∀ a b, before a b = false → before b a = false → a = b)
    (transitive : ∀ a b c, before a b = true → before b c = true → before a c = true) :
    (ofList before xs).Pairwise (before · · = true) := by
  induction xs with
  | nil => simp [ofList]
  | cons x rest ih => exact insert_pairwise x _ connected transitive ih

theorem mem_ofList {x : α} {xs : List α}
    (connected : ∀ a b, before a b = false → before b a = false → a = b) :
    x ∈ ofList before xs ↔ x ∈ xs := by
  induction xs with
  | nil => simp [ofList]
  | cons y rest ih =>
    change x ∈ insert before y (ofList before rest) ↔ _
    rw [mem_insert connected, ih, List.mem_cons]

end SortedSet

theorem Literal.precedes_trans {a b c : Literal} (first : a.precedes b = true)
    (second : b.precedes c = true) : a.precedes c = true := by
  simp only [precedes, decide_eq_true_eq] at first second ⊢
  omega

/-- The literals of a normal form increase strictly. -/
theorem normalForm_pairwise (clause : List Literal) :
    (normalForm clause).Pairwise (Literal.precedes · · = true) :=
  SortedSet.ofList_pairwise clause (fun _ _ => Literal.eq_of_not_precedes)
    fun _ _ _ => Literal.precedes_trans

theorem normalForm_nodup (clause : List Literal) : (normalForm clause).Nodup := by
  refine (normalForm_pairwise clause).imp fun {a b} less => ?_
  rintro rfl
  simp [Literal.precedes] at less

theorem isTautology_iff : isTautology clause = true ↔ ∃ l ∈ clause, l.negate ∈ clause := by
  simp [isTautology]

/-- No code lies between those of complementary literals. -/
theorem Literal.code_negate_le {l m : Literal} (less : l.code < m.code) :
    l.negate.code ≤ m.code := by
  obtain ⟨var, positive⟩ := l
  cases positive <;>
    simp only [code, negate, Bool.not_true, Bool.not_false, Bool.toNat_true, Bool.toNat_false]
      at less ⊢ <;>
    omega

theorem Literal.negate_ne (l : Literal) : l.negate ≠ l := by
  intro same
  have signs := congrArg Literal.positive same
  simp at signs

/-- In an increasing list nothing stands between complementary literals. -/
theorem negate_eq_of_increasing {first second : Literal} {rest : List Literal}
    (increasing : (first :: second :: rest).Pairwise (Literal.precedes · · = true))
    (member : first.negate ∈ second :: rest) : first.negate = second := by
  obtain ⟨later, increasing⟩ := List.pairwise_cons.mp increasing
  obtain ⟨beyond, -⟩ := List.pairwise_cons.mp increasing
  refine (List.mem_cons.mp member).resolve_right fun inside => ?_
  have after := of_decide_eq_true (beyond _ inside)
  have before := Literal.code_negate_le (of_decide_eq_true (later second List.mem_cons_self))
  omega

/-- In an increasing list complementary literals are neighbors. -/
theorem hasOpposedNeighbors_iff {clause : List Literal}
    (increasing : clause.Pairwise (Literal.precedes · · = true)) :
    hasOpposedNeighbors clause = true ↔ ∃ l ∈ clause, l.negate ∈ clause := by
  fun_induction hasOpposedNeighbors clause with
  | case1 first second rest ih =>
    rw [Bool.or_eq_true, decide_eq_true_iff, ih increasing.of_cons]
    constructor
    · rintro (rfl | ⟨l, member, opposite⟩)
      · exact ⟨second, by simp, by simp⟩
      · exact ⟨l, List.mem_cons_of_mem _ member, List.mem_cons_of_mem _ opposite⟩
    · rintro ⟨l, member, opposite⟩
      have adjacent : first.negate ∈ second :: rest → first = second.negate := by
        intro inside
        rw [← negate_eq_of_increasing increasing inside, Literal.negate_negate]
      rcases List.mem_cons.mp member with rfl | later
      · exact .inl (adjacent ((List.mem_cons.mp opposite).resolve_left (Literal.negate_ne l)))
      · rcases List.mem_cons.mp opposite with rfl | opposite
        · exact .inl (adjacent (by simpa using later))
        · exact .inr ⟨l, later, opposite⟩
  | case2 => simp
  | case3 l => simp [Literal.negate_ne]

/-- In a normal form the neighbors tell whether a clause is a tautology. -/
theorem hasOpposedNeighbors_normalForm (clause : List Literal) :
    hasOpposedNeighbors (normalForm clause) = isTautology (normalForm clause) := by
  rw [Bool.eq_iff_iff, hasOpposedNeighbors_iff (normalForm_pairwise clause), isTautology_iff]

/-- What is stored for a clause of the formula is proper. -/
theorem normalForm_proper (source : Origin) (declared : ∀ l ∈ clause, l.var < n)
    (nonempty : normalForm clause ≠ []) (consistent : isTautology (normalForm clause) = false) :
    Clause.Proper ⟨normalForm clause, source⟩ n where
  ne_nil := nonempty
  declared := fun l member => declared l (mem_normalForm.mp member)
  distinct := by
    refine List.Nodup.map_on (fun a first b second vars => ?_) (normalForm_nodup clause)
    rcases Literal.eq_or_eq_negate vars with same | opposite
    · exact same
    · have tautology : isTautology (normalForm clause) = true :=
        isTautology_iff.mpr ⟨b, second, opposite ▸ first⟩
      rw [consistent] at tautology
      cases tautology

end ClauseLearning
