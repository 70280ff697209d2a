/- GID: Library/PathTrie
   anchors: []
   digest: A path-compressed trie over any alphabet has one canonical shape for each finite map. -/

import Mathlib.Data.List.Infix

set_option autoImplicit false
set_option relaxedAutoImplicit false

namespace BitxorCore.Library.PathTrie
open List Function

/-- A trie whose nodes carry compressed paths.  `empty` marks a missing child as
well as the trie without entries. -/
inductive Trie (A V : Type) where
  | empty
  | leaf (path : List A) (value : V)
  | branch (path : List A) (child : A → Trie A V)

variable {A V : Type} [DecidableEq A]

def firstDiff : List A → List A → Nat
  | a :: p, b :: k => if a = b then firstDiff p k + 1 else 0
  | _, _ => 0

/-- Two paths part after a common prefix with different next symbols. -/
def Forks (p k s : List A) (x : A) (p' : List A) (y : A) (k' : List A) : Prop :=
  p = s ++ x :: p' ∧ k = s ++ y :: k' ∧ x ≠ y

theorem firstDiff_append (s p k : List A) :
    firstDiff (s ++ p) (s ++ k) = s.length + firstDiff p k := by
  induction s with
  | nil => simp
  | cons a s ih =>
    simp only [cons_append, firstDiff, ↓reduceIte, ih, length_cons]
    omega

variable {k : List A} {p : List A} {x y : A} {s p' k' : List A}

theorem firstDiff_of_forks (forks : Forks p k s x p' y k') : firstDiff p k = s.length := by
  obtain ⟨rfl, rfl, differ⟩ := forks
  rw [firstDiff_append]
  simp [firstDiff, differ]

theorem firstDiff_append_right (p r : List A) : firstDiff p (p ++ r) = p.length := by
  have shared := firstDiff_append p [] r
  simpa [firstDiff] using shared

theorem firstDiff_le_left (p k : List A) : firstDiff p k ≤ p.length := by
  induction p generalizing k with
  | nil => simp [firstDiff]
  | cons a p ih =>
    cases k with
    | nil => simp [firstDiff]
    | cons b k =>
      have below := ih k
      simp only [firstDiff, length_cons]
      split <;> omega

theorem prefix_or_forks (p k : List A) :
    p <+: k ∨ k <+: p ∨ ∃ s x p' y k', Forks p k s x p' y k' := by
  induction p generalizing k with
  | nil => exact Or.inl nil_prefix
  | cons a p ih =>
    cases k with
    | nil => exact Or.inr (Or.inl nil_prefix)
    | cons b k =>
      by_cases same : a = b
      · subst same
        rcases ih k with pre | pre | ⟨s, x, p', y, k', rfl, rfl, differ⟩
        · exact Or.inl (cons_prefix_cons.mpr ⟨rfl, pre⟩)
        · exact Or.inr (Or.inl (cons_prefix_cons.mpr ⟨rfl, pre⟩))
        · exact Or.inr (Or.inr ⟨a :: s, x, p', y, k', rfl, rfl, differ⟩)
      · exact Or.inr (Or.inr ⟨[], a, p, b, k, rfl, rfl, same⟩)

theorem forks_of_length_eq (size : p.length = k.length) (differ : p ≠ k) :
    ∃ s x p' y k', Forks p k s x p' y k' := by
  rcases prefix_or_forks p k with pre | pre | forks
  · exact absurd (pre.eq_of_length size) differ
  · exact absurd (pre.eq_of_length size.symm).symm differ
  · exact forks

theorem append_or_forks (size : p.length < k.length) :
    (∃ a r, k = p ++ a :: r) ∨ ∃ s x p' y k', Forks p k s x p' y k' := by
  rcases prefix_or_forks p k with ⟨r, rfl⟩ | pre | forks
  · cases r with
    | nil => simp at size
    | cons a r => exact Or.inl ⟨a, r, rfl⟩
  · exact absurd pre.length_le (by omega)
  · exact Or.inr forks

/-- The value stored for a key, read along the compressed paths. -/
def lookup : Trie A V → List A → Option V
  | .empty, _ => none
  | .leaf p v, k => if p = k then some v else none
  | .branch p c, k =>
      if p <+: k then
        match k.drop p.length with
        | [] => none
        | a :: r => lookup (c a) r
      else none

def fork (s : List A) (x : A) (tx : Trie A V) (y : A) (ty : Trie A V) : Trie A V :=
  .branch s (update (update (fun _ => .empty) x tx) y ty)

/-- Enter a value, splitting the compressed path where the key leaves it. -/
def insert (v : V) : Trie A V → List A → Trie A V
  | .empty, k => .leaf k v
  | .leaf p w, k =>
      if p = k then .leaf k v else
        match p.drop (firstDiff p k), k.drop (firstDiff p k) with
        | x :: p', y :: k' => fork (p.take (firstDiff p k)) x (.leaf p' w) y (.leaf k' v)
        | _, _ => .leaf p w
  | .branch p c, k =>
      if firstDiff p k = p.length then
        match k.drop p.length with
        | [] => .branch p c
        | a :: r => .branch p (update c a (insert v (c a) r))
      else
        match p.drop (firstDiff p k), k.drop (firstDiff p k) with
        | x :: p', y :: k' => fork (p.take (firstDiff p k)) x (.branch p' c) y (.leaf k' v)
        | _, _ => .branch p c

def graft (p : List A) (a : A) : Trie A V → Trie A V
  | .empty => .empty
  | .leaf q v => .leaf (p ++ a :: q) v
  | .branch q c => .branch (p ++ a :: q) c

open Classical in
noncomputable def collapse (p : List A) (c : A → Trie A V) : Trie A V :=
  if single : ∃! a, c a ≠ .empty then graft p single.choose (c single.choose) else .branch p c

/-- Remove a key and collapse the branch that is left with one child. -/
noncomputable def erase : Trie A V → List A → Trie A V
  | .empty, _ => .empty
  | .leaf p w, k => if p = k then .empty else .leaf p w
  | .branch p c, k =>
      if p <+: k then
        match k.drop p.length with
        | [] => .branch p c
        | a :: r => collapse p (update c a (erase (c a) r))
      else .branch p c

/-- The non-empty tries in canonical form whose keys all have `n` symbols: every
branch keeps at least two children. -/
def Canonical : Trie A V → Nat → Prop
  | .empty, _ => False
  | .leaf p _, n => p.length = n
  | .branch p c, n =>
      ∃ m, n = p.length + 1 + m ∧ (∀ a, c a = .empty ∨ Canonical (c a) m) ∧
        ∃ a b, a ≠ b ∧ c a ≠ .empty ∧ c b ≠ .empty

def CanonicalRoot (t : Trie A V) (n : Nat) : Prop := t = .empty ∨ Canonical t n

inductive Subtrie : Trie A V → Trie A V → Prop
  | refl (t : Trie A V) : Subtrie t t
  | child {u : Trie A V} {p : List A} {c : A → Trie A V} (a : A) (below : Subtrie u (c a)) :
      Subtrie u (.branch p c)

variable {c : A → Trie A V} {t : Trie A V}

omit [DecidableEq A] in
theorem Subtrie.of_branch {p : List A}
    (inside : Subtrie (.branch p c) t) (a : A) : Subtrie (c a) t := by
  generalize shape : Trie.branch p c = u at inside
  induction inside with
  | refl =>
    subst shape
    exact .child a (.refl _)
  | child b below ih => exact .child b ih

omit [DecidableEq A] in
theorem Canonical.ne_empty {n : Nat} (canon : Canonical t n) : t ≠ .empty := by
  rintro rfl
  exact canon

@[simp] theorem lookup_empty (k : List A) : lookup (.empty : Trie A V) k = none := rfl

theorem lookup_leaf_iff (p : List A) (w : V) (k : List A) (v : V) :
    lookup (.leaf p w) k = some v ↔ k = p ∧ w = v := by
  simp [lookup, eq_comm]

@[simp] theorem lookup_branch_append (p : List A) (c : A → Trie A V) (a : A) (r : List A) :
    lookup (.branch p c) (p ++ a :: r) = lookup (c a) r := by
  simp [lookup]

theorem lookup_branch_eq_some {v : V} (found : lookup (.branch p c) k = some v) :
    ∃ a r, k = p ++ a :: r ∧ lookup (c a) r = some v := by
  simp only [lookup] at found
  split at found
  · rename_i pre
    obtain ⟨r, rfl⟩ := pre
    simp only [drop_left] at found
    cases r with
    | nil => simp at found
    | cons a r => exact ⟨a, r, rfl, found⟩
  · simp at found

theorem lookup_branch_iff (p : List A) (c : A → Trie A V) (k : List A) (v : V) :
    lookup (.branch p c) k = some v ↔ ∃ a r, k = p ++ a :: r ∧ lookup (c a) r = some v := by
  constructor
  · exact lookup_branch_eq_some
  · rintro ⟨a, r, rfl, found⟩
    simpa using found

theorem lookup_graft_iff (p : List A) (a : A) (t : Trie A V) (k : List A) (v : V) :
    lookup (graft p a t) k = some v ↔ ∃ r, k = p ++ a :: r ∧ lookup t r = some v := by
  cases t with
  | empty => simp [graft]
  | leaf q w =>
    simp only [graft, lookup_leaf_iff]
    constructor
    · rintro ⟨rfl, rfl⟩
      exact ⟨q, rfl, rfl, rfl⟩
    · rintro ⟨r, rfl, rfl, rfl⟩
      exact ⟨rfl, rfl⟩
  | branch q c =>
    simp only [graft, lookup_branch_iff]
    constructor
    · rintro ⟨b, r, rfl, found⟩
      exact ⟨q ++ b :: r, by simp, b, r, rfl, found⟩
    · rintro ⟨_, rfl, b, r, rfl, found⟩
      exact ⟨b, r, by simp, found⟩

variable {n : Nat} {t : Trie A V}

theorem Canonical.exists_key (canon : Canonical t n) : ∃ k v, lookup t k = some v := by
  induction t generalizing n with
  | empty => exact canon.elim
  | leaf p w => exact ⟨p, w, by simp [lookup]⟩
  | branch p c ih =>
    obtain ⟨m, -, children, a, -, -, present, -⟩ := canon
    rcases children a with gone | child
    · exact absurd gone present
    · obtain ⟨r, v, found⟩ := ih a child
      exact ⟨p ++ a :: r, v, by simpa using found⟩

private theorem Canonical.two_keys (canon : Canonical (.branch p c) n) :
    ∃ a b r s v w, a ≠ b ∧ lookup (.branch p c) (p ++ a :: r) = some v ∧
      lookup (.branch p c) (p ++ b :: s) = some w := by
  obtain ⟨m, -, children, a, b, differ, presentA, presentB⟩ := canon
  obtain ⟨r, v, foundA⟩ := ((children a).resolve_left presentA).exists_key
  obtain ⟨s, w, foundB⟩ := ((children b).resolve_left presentB).exists_key
  exact ⟨a, b, r, s, v, w, differ, by simpa using foundA, by simpa using foundB⟩

private theorem branch_path_extends {q : List A} {c d : A → Trie A V}
    (canon : Canonical (.branch p c) n)
    (agree : ∀ k, lookup (.branch p c) k = lookup (.branch q d) k) : q <+: p := by
  obtain ⟨a, b, r, s, v, w, differ, foundA, foundB⟩ := canon.two_keys
  rw [agree] at foundA foundB
  obtain ⟨_, _, sameA, -⟩ := lookup_branch_eq_some foundA
  obtain ⟨_, _, sameB, -⟩ := lookup_branch_eq_some foundB
  have preA : q <+: p ++ a :: r := sameA ▸ prefix_append _ _
  have preB : q <+: p ++ b :: s := sameB ▸ prefix_append _ _
  rcases prefix_or_prefix_of_prefix preA (prefix_append p (a :: r)) with short | long
  · exact short
  -- a longer path would contain both of the different symbols after `p`
  · obtain ⟨u, rfl⟩ := long
    have left : u <+: a :: r := (prefix_append_right_inj p).mp preA
    have right : u <+: b :: s := (prefix_append_right_inj p).mp preB
    cases u with
    | nil => simp
    | cons x u => simp_all

private theorem leaf_disagrees_branch {q : List A} {w : V} {d : A → Trie A V}
    (canon : Canonical (.branch q d) n)
    (agree : ∀ k, lookup (.leaf p w) k = lookup (.branch q d) k) : False := by
  obtain ⟨a, b, r, s, _, _, differ, foundA, foundB⟩ := canon.two_keys
  rw [← agree, lookup_leaf_iff] at foundA foundB
  have tails := append_cancel_left (foundA.1.trans foundB.1.symm)
  exact differ (cons.inj tails).1

private theorem empty_of_lookup_none (canon : CanonicalRoot t n)
    (none : ∀ k, lookup t k = none) : t = .empty := by
  rcases canon with rfl | canon
  · rfl
  · obtain ⟨k, v, found⟩ := canon.exists_key
    rw [none k] at found
    simp at found

variable {m : Nat} {u : Trie A V}

/-- Canonical form is unique: two canonical tries with the same lookups are equal. -/
theorem CanonicalRoot.unique (left : CanonicalRoot t n)
    (right : CanonicalRoot u m) (agree : ∀ k, lookup t k = lookup u k) : t = u := by
  induction t generalizing u n m with
  | empty => exact (empty_of_lookup_none right fun k => (agree k).symm).symm
  | leaf p w =>
    cases u with
    | empty => exact empty_of_lookup_none left agree
    | leaf q z =>
      have found := agree q
      simp only [lookup, ↓reduceIte] at found
      split at found
      · simp_all
      · simp at found
    | branch q d => exact (leaf_disagrees_branch (right.resolve_left (by simp)) agree).elim
  | branch p c ih =>
    cases u with
    | empty => exact empty_of_lookup_none left agree
    | leaf q z =>
      exact (leaf_disagrees_branch (left.resolve_left (by simp)) fun k => (agree k).symm).elim
    | branch q d =>
      have left := left.resolve_left (by simp)
      have right := right.resolve_left (by simp)
      have forward := branch_path_extends left agree
      have backward := branch_path_extends right (fun k => (agree k).symm)
      have same : p = q := List.IsPrefix.eq_of_length backward
        (le_antisymm backward.length_le forward.length_le)
      subst same
      obtain ⟨i, -, childrenL, -⟩ := left
      obtain ⟨j, -, childrenR, -⟩ := right
      have childEq : c = d := by
        funext a
        refine ih a (childrenL a) (childrenR a) fun r => ?_
        have whole := agree (p ++ a :: r)
        simpa using whole
      rw [childEq]

/-! Insertion. -/

theorem insert_leaf_self (k : List A) (w v : V) : insert v (.leaf k w) k = .leaf k v := by
  simp only [insert, ↓reduceIte]

theorem insert_leaf_of_forks (w v : V)
    (forks : Forks p k s x p' y k') :
    insert v (.leaf p w) k = fork s x (.leaf p' w) y (.leaf k' v) := by
  have index := firstDiff_of_forks forks
  obtain ⟨rfl, rfl, differ⟩ := forks
  simp [insert, index, differ]

theorem insert_branch_of_forks (c : A → Trie A V) (v : V)
    (forks : Forks p k s x p' y k') :
    insert v (.branch p c) k = fork s x (.branch p' c) y (.leaf k' v) := by
  have index := firstDiff_of_forks forks
  obtain ⟨rfl, rfl, differ⟩ := forks
  have short : s.length ≠ (s ++ x :: p').length := by simp
  simp only [insert, index, if_neg short, drop_left, take_left]

theorem insert_branch_append (p : List A) (c : A → Trie A V) (v : V) (a : A) (r : List A) :
    insert v (.branch p c) (p ++ a :: r) = .branch p (update c a (insert v (c a) r)) := by
  simp only [insert, firstDiff_append_right, ↓reduceIte, drop_left]

theorem lookup_fork_iff {s : List A} (differ : x ≠ y) (tx ty : Trie A V)
    (k : List A) (v : V) :
    lookup (fork s x tx y ty) k = some v ↔ (∃ r, k = s ++ x :: r ∧ lookup tx r = some v) ∨
        ∃ r, k = s ++ y :: r ∧ lookup ty r = some v := by
  rw [fork, lookup_branch_iff]
  constructor
  · rintro ⟨a, r, rfl, found⟩
    by_cases atY : a = y
    · simp_all
    · by_cases atX : a = x
      · simp_all
      · simp [update_of_ne atY, update_of_ne atX] at found
  · grind

private theorem lookup_fork_leaf {s k' : List A} (differ : x ≠ y) (tx : Trie A V)
    (v z : V) (q : List A) : lookup (fork s x tx y (.leaf k' v)) q = some z ↔
      (if q = s ++ y :: k' then some v else lookup (graft s x tx) q) = some z := by
  rw [lookup_fork_iff differ]
  simp only [lookup_leaf_iff]
  split
  · next here =>
    subst here
    simp [Ne.symm differ]
  · next other =>
    rw [lookup_graft_iff]
    refine or_iff_left ?_
    rintro ⟨r, rfl, rfl, -⟩
    exact other rfl

theorem canonical_fork {s : List A} (differ : x ≠ y) {tx ty : Trie A V}
    (left : Canonical tx m) (right : Canonical ty m) :
    Canonical (fork s x tx y ty) (s.length + 1 + m) := by
  refine ⟨m, rfl, ?_, x, y, differ, ?_, ?_⟩
  · intro a
    by_cases atY : a = y
    · subst atY
      exact Or.inr (by simpa using right)
    · by_cases atX : a = x
      · subst atX
        exact Or.inr (by simpa [update_of_ne atY] using left)
      · exact Or.inl (by simp [update_of_ne atY, update_of_ne atX])
  · simpa [update_of_ne differ] using left.ne_empty
  · simpa using right.ne_empty

theorem canonical_insert (canon : CanonicalRoot t n) (v : V)
    (size : k.length = n) : Canonical (insert v t k) n := by
  induction t generalizing n k with
  | empty => simpa [insert, Canonical] using size
  | leaf p w =>
    have length : p.length = n := canon.resolve_left (by simp)
    by_cases same : p = k
    · simpa [insert, same, Canonical] using size
    · obtain ⟨s, x, p', y, k', forks⟩ := forks_of_length_eq (length.trans size.symm) same
      rw [insert_leaf_of_forks w v forks]
      obtain ⟨rfl, rfl, differ⟩ := forks
      simp only [length_append, length_cons] at length size
      have old : Canonical (.leaf p' w) p'.length := rfl
      have new : Canonical (.leaf k' v) p'.length := show k'.length = p'.length by omega
      have below := canonical_fork (s := s) differ old new
      rwa [show s.length + 1 + p'.length = n by omega] at below
  | branch p c ih =>
    obtain ⟨m, rfl, children, a, b, differAB, presentA, presentB⟩ := canon.resolve_left (by simp)
    rcases append_or_forks (p := p) (k := k) (by omega) with ⟨y, r, rfl⟩ |
        ⟨s, x, p', y, k', forks⟩
    · rw [insert_branch_append]
      have tail : r.length = m := by
        simp only [length_append, length_cons] at size
        omega
      have below : Canonical (insert v (c y) r) m := ih y (children y) tail
      have kept {z : A} (present : c z ≠ .empty) : update c y (insert v (c y) r) z ≠ .empty := by
        by_cases here : z = y
        · subst here
          simpa using below.ne_empty
        · simpa [update_of_ne here] using present
      refine ⟨m, rfl, fun z => ?_, a, b, differAB, kept presentA, kept presentB⟩
      by_cases here : z = y
      · simp_all
      · simpa [update_of_ne here] using children z
    · rw [insert_branch_of_forks c v forks]
      obtain ⟨rfl, rfl, differ⟩ := forks
      simp only [length_append, length_cons] at size
      have rest : Canonical (.branch p' c) (p'.length + 1 + m) :=
        ⟨m, rfl, children, a, b, differAB, presentA, presentB⟩
      have new : Canonical (.leaf k' v) (p'.length + 1 + m) :=
        show k'.length = p'.length + 1 + m by omega
      have below := canonical_fork (s := s) differ rest new
      rwa [show s.length + 1 + (p'.length + 1 + m) = (s ++ x :: p').length + 1 + m by
        simp only [length_append, length_cons]; omega] at below

theorem lookup_insert (canon : CanonicalRoot t n) (v : V) (size : k.length = n) (q : List A) :
    lookup (insert v t k) q = if q = k then some v else lookup t q := by
  apply Option.ext
  intro z
  induction t generalizing n k q with
  | empty =>
    by_cases same : q = k
    · simp [insert, lookup, same]
    · simp [insert, lookup, same, Ne.symm same]
  | leaf p w =>
    have length : p.length = n := canon.resolve_left (by simp)
    by_cases same : p = k
    · subst same
      by_cases here : q = p
      · simp [insert, lookup, here]
      · simp [insert, lookup, here, Ne.symm here]
    · obtain ⟨s, x, p', y, k', forks⟩ := forks_of_length_eq (length.trans size.symm) same
      rw [insert_leaf_of_forks w v forks]
      obtain ⟨rfl, rfl, differ⟩ := forks
      exact lookup_fork_leaf differ _ v z q
  | branch p c ih =>
    obtain ⟨m, rfl, children, -⟩ := canon.resolve_left (by simp)
    rcases append_or_forks (p := p) (k := k) (by omega) with ⟨y, r, rfl⟩ |
        ⟨s, x, p', y, k', forks⟩
    · have tail : r.length = m := by
        simp only [length_append, length_cons] at size
        omega
      rw [insert_branch_append, lookup_branch_iff]
      have below := ih y (children y) tail
      by_cases here : q = p ++ y :: r
      · subst here
        have self := below r
        simp [self]
      · simp only [here, ↓reduceIte, lookup_branch_iff]
        have other : ∀ a u, q = p ++ a :: u → (lookup (update c y (insert v (c y) r) a) u = some z ↔
              lookup (c a) u = some z) := by
          intro a u equal
          by_cases child : a = y
          · subst child
            have apart : u ≠ r := fun same => here (by rw [equal, same])
            simpa [apart] using below u
          · simp [update_of_ne child]
        constructor
        · rintro ⟨a, u, equal, found⟩
          exact ⟨a, u, equal, (other a u equal).mp found⟩
        · rintro ⟨a, u, equal, found⟩
          exact ⟨a, u, equal, (other a u equal).mpr found⟩
    · rw [insert_branch_of_forks c v forks]
      obtain ⟨rfl, rfl, differ⟩ := forks
      exact lookup_fork_leaf differ (.branch p' c) v z q

/-! Removal. -/

theorem lookup_branch_of_forks (c : A → Trie A V)
    (forks : Forks p k s x p' y k') : lookup (.branch p c) k = none := by
  apply Option.eq_none_iff_forall_ne_some.mpr
  intro v found
  obtain ⟨a, r, rfl, -⟩ := lookup_branch_eq_some found
  obtain ⟨rfl, split, differ⟩ := forks
  simp only [append_assoc, cons_append, append_cancel_left_eq, cons.injEq] at split
  exact differ split.1

theorem erase_branch_append (p : List A) (c : A → Trie A V) (a : A) (r : List A) :
    erase (.branch p c) (p ++ a :: r) = collapse p (update c a (erase (c a) r)) := by
  simp [erase]

omit [DecidableEq A] in
theorem collapse_of_two {a b : A} (differ : a ≠ b) (left : c a ≠ .empty)
    (right : c b ≠ .empty) (p : List A) : collapse p c = .branch p c := by
  unfold collapse
  split
  · rename_i single
    exact absurd (single.unique left right) differ
  · rfl

omit [DecidableEq A] in
theorem collapse_of_single {a : A} (present : c a ≠ .empty)
    (others : ∀ b, b ≠ a → c b = .empty) (p : List A) : collapse p c = graft p a (c a) := by
  have single : ∃! b, c b ≠ .empty := by
    refine ⟨a, present, ?_⟩
    intro b kept
    by_contra differ
    exact kept (others b differ)
  have chosen : single.choose = a := single.unique single.choose_spec.1 present
  simp only [collapse, dif_pos single, chosen]

theorem lookup_collapse (p : List A) (c : A → Trie A V) (k : List A) :
    lookup (collapse p c) k = lookup (.branch p c) k := by
  unfold collapse
  split
  · rename_i single
    apply Option.ext
    intro v
    rw [lookup_graft_iff, lookup_branch_iff]
    constructor
    · simp_all
    · rintro ⟨a, r, equal, found⟩
      have present : c a ≠ .empty := by
        intro gone
        simp [gone] at found
      have chosen : a = single.choose := single.unique present single.choose_spec.1
      exact ⟨r, chosen ▸ equal, chosen ▸ found⟩
  · rfl

omit [DecidableEq A] in
theorem canonical_graft (canon : Canonical t m) (p : List A)
    (a : A) : Canonical (graft p a t) (p.length + 1 + m) := by
  cases t with
  | empty => exact canon.elim
  | leaf q v =>
    have size : q.length = m := canon
    simp only [graft, Canonical, length_append, length_cons]
    omega
  | branch q c =>
    obtain ⟨i, rfl, rest⟩ := canon
    refine ⟨i, ?_, rest⟩
    simp only [length_append, length_cons]
    omega

omit [DecidableEq A] in
theorem canonical_collapse
    (children : ∀ a, c a = .empty ∨ Canonical (c a) m) {a : A} (present : c a ≠ .empty)
    (p : List A) : Canonical (collapse p c) (p.length + 1 + m) := by
  by_cases others : ∀ b, b ≠ a → c b = .empty
  · rw [collapse_of_single present others]
    exact canonical_graft ((children a).resolve_left present) p a
  · push Not at others
    obtain ⟨b, differ, kept⟩ := others
    rw [collapse_of_two differ kept present]
    exact ⟨m, rfl, children, b, a, differ, kept, present⟩

theorem canonical_erase (canon : CanonicalRoot t n) (k : List A) : CanonicalRoot (erase t k) n := by
  induction t generalizing n k with
  | empty => exact Or.inl rfl
  | leaf p w =>
    by_cases same : p = k
    · exact Or.inl (by simp [erase, same])
    · simpa [erase, same] using canon
  | branch p c ih =>
    by_cases pre : p <+: k
    · obtain ⟨r, rfl⟩ := pre
      cases r with
      | nil => simpa [erase] using canon
      | cons x r =>
        obtain ⟨m, rfl, children, a, b, differ, presentA, presentB⟩ := canon.resolve_left (by simp)
        rw [erase_branch_append]
        have kept : ∀ y, update c x (erase (c x) r) y = .empty ∨
            Canonical (update c x (erase (c x) r) y) m := by
          intro y
          by_cases here : y = x
          · subst here
            rw [update_self]
            exact ih y (children y) r
          · simpa [update_of_ne here] using children y
        -- one of the two known children is not the one being changed
        by_cases here : a = x
        · have other : b ≠ x := fun same => differ (here.trans same.symm)
          exact Or.inr (canonical_collapse kept (a := b)
            (by simpa [update_of_ne other] using presentB) p)
        · exact Or.inr (canonical_collapse kept (a := a)
            (by simpa [update_of_ne here] using presentA) p)
    · simpa [erase, pre] using canon

theorem lookup_erase (t : Trie A V) (k q : List A) :
    lookup (erase t k) q = if q = k then none else lookup t q := by
  induction t generalizing k q with
  | empty => simp [erase]
  | leaf p w =>
    by_cases same : p = k
    · subst same
      by_cases here : q = p
      · simp [erase, here]
      · simp [erase, lookup, here, Ne.symm here]
    · by_cases here : q = k
      · simp [erase, lookup, here, same]
      · simp [erase, same, here]
  | branch p c ih =>
    by_cases pre : p <+: k
    · obtain ⟨r, rfl⟩ := pre
      cases r with
      | nil =>
        by_cases here : q = p
        · simp [erase, lookup, here]
        · simp [erase, here]
      | cons x r =>
        rw [erase_branch_append, lookup_collapse]
        by_cases inside : ∃ a u, q = p ++ a :: u
        · obtain ⟨a, u, rfl⟩ := inside
          by_cases child : a = x
          · subst child
            simp [ih]
          · simp [child]
        · have absent : ∀ d : A → Trie A V, lookup (.branch p d) q = none := by
            intro d
            apply Option.eq_none_iff_forall_ne_some.mpr
            intro v found
            obtain ⟨a, u, equal, -⟩ := lookup_branch_eq_some found
            exact inside ⟨a, u, equal⟩
          simp [absent]
    · by_cases here : q = k
      · simp [erase, lookup, pre, here]
      · simp [erase, pre, here]

theorem erase_of_lookup_none (canon : CanonicalRoot t n)
    (absent : lookup t k = none) : erase t k = t := by
  refine CanonicalRoot.unique (canonical_erase canon k) canon fun q => ?_
  rw [lookup_erase]
  split
  · rename_i same
    rw [same, absent]
  · rfl

theorem erase_branch_ne_empty
    (canon : Canonical (.branch p c) n) (k : List A) : erase (.branch p c) k ≠ .empty := by
  obtain ⟨a, b, r, s, v, w, differ, foundA, foundB⟩ := canon.two_keys
  have survivor : ∃ q v, q ≠ k ∧ lookup (.branch p c) q = some v := by
    by_cases same : p ++ a :: r = k
    · refine ⟨p ++ b :: s, w, fun equal => ?_, foundB⟩
      have tails := append_cancel_left (same.trans equal.symm)
      exact differ (cons.inj tails).1
    · exact ⟨p ++ a :: r, v, same, foundA⟩
  obtain ⟨q, v, apart, found⟩ := survivor
  intro gone
  have after := lookup_erase (.branch p c) k q
  rw [gone, if_neg apart, found] at after
  simp at after

end BitxorCore.Library.PathTrie
