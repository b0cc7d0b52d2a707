import Mathlib.Data.List.Nodup
import Mathlib.Data.List.Perm.Subperm
import Mathlib.Order.Nat
import Mathlib.Logic.Relation

/-!
# In-order walks of a finite forest

Every node has ordered children to its left and to its right. The walk emits the
left subtrees, the node, then the right subtrees. It is given three times: as a
relation, as a recursion on depth and as a stack machine; on a forest whose nodes
have one parent each, the three agree and no node is emitted twice.
-/

namespace CrdtSync.Lib

/-- The children of the root (`none`) and of every node. -/
structure Forest (α : Type*) where
  left : Option α → List α
  right : Option α → List α

namespace Forest

variable {α : Type*} (F : Forest α)

inductive Step (α : Type*)
  | emit (a : α)
  | expand (a : Option α)

/-- The stack machine: left children, self, right children. -/
def loop : Nat → List (Step α) → List α → Option (List α)
  | _, [], out => some out
  | 0, _ :: _, _ => none
  | fuel + 1, .emit a :: stack, out => loop fuel stack (out ++ [a])
  | fuel + 1, .expand p :: stack, out =>
    loop fuel ((F.left p).map (fun a => .expand (some a)) ++
      ((p.map .emit).toList ++ ((F.right p).map (fun a => .expand (some a)) ++ stack))) out

/-- The subtree of a node, to a depth. -/
def inOrder : Nat → α → List α
  | 0, _ => []
  | depth + 1, a =>
    (F.left (some a)).flatMap (inOrder depth) ++ a :: (F.right (some a)).flatMap (inOrder depth)

def children (p : Option α) : List α := F.left p ++ F.right p

/-- The whole forest, to a depth. -/
def order (depth : Nat) : List α := (F.children none).flatMap (F.inOrder depth)

/-- `Walks siblings out`: the subtrees of `siblings`, one after the other. -/
inductive Walks : List α → List α → Prop
  | nil : Walks [] []
  | cons {a : α} {siblings ls rs out : List α} (hLeft : Walks (F.left (some a)) ls)
      (hRight : Walks (F.right (some a)) rs) (hRest : Walks siblings out) :
      Walks (a :: siblings) (ls ++ a :: (rs ++ out))

variable {F}

theorem Walks.unique {siblings out out' : List α} (h : F.Walks siblings out)
    (h' : F.Walks siblings out') : out = out' := by
  induction h generalizing out' with
  | nil => cases h'; rfl
  | cons _ _ _ ihLeft ihRight ihRest =>
    cases h' with
    | cons hLeft' hRight' hRest' => rw [ihLeft hLeft', ihRight hRight', ihRest hRest']

theorem Walks.append {xs ys out out' : List α} (h : F.Walks xs out) (h' : F.Walks ys out') :
    F.Walks (xs ++ ys) (out ++ out') := by
  induction h with
  | nil => exact h'
  | cons hLeft hRight _ _ _ ih =>
    simpa only [List.cons_append, List.append_assoc] using Walks.cons hLeft hRight ih

theorem Walks.loop {siblings out : List α} (h : F.Walks siblings out) (fuel : Nat)
    (stack : List (Step α)) (acc : List α) :
    F.loop (2 * out.length + fuel) (siblings.map (fun a => .expand (some a)) ++ stack) acc =
      F.loop fuel stack (acc ++ out) := by
  induction h generalizing fuel stack acc with
  | nil => simp
  | @cons a siblings ls rs out _ _ _ ihLeft ihRight ihRest =>
    have hFuel : 2 * (ls ++ a :: (rs ++ out)).length + fuel =
        (2 * ls.length + ((2 * rs.length + (2 * out.length + fuel)) + 1)) + 1 := by
      simp only [List.length_append, List.length_cons]
      omega
    rw [hFuel, List.map_cons, List.cons_append, Forest.loop, ihLeft]
    simp only [Option.map_some, Option.toList_some, List.singleton_append]
    rw [Forest.loop, ihRight, ihRest]
    simp only [List.append_assoc, List.cons_append, List.nil_append]

variable (F)

/-- The children of the root and of the nodes among `nodes` are among them, and each
of them hangs in one place. -/
structure IsForest (nodes : List α) : Prop where
  mem : ∀ p a, a ∈ F.children p → a ∈ nodes
  nodup : ∀ p, (∀ a ∈ p, a ∈ nodes) → (F.children p).Nodup
  parent : ∀ p q a, (∀ b ∈ p, b ∈ nodes) → (∀ b ∈ q, b ∈ nodes) →
    a ∈ F.children p → a ∈ F.children q → p = q

/-- The nodes `n` steps below the root's children. -/
inductive At : Nat → α → Prop
  | root {a : α} (h : a ∈ F.children none) : At 0 a
  | child {n : Nat} {a b : α} (ha : At n a) (h : b ∈ F.children (some a)) : At (n + 1) b

variable {F} {nodes : List α}

theorem At.mem (hF : F.IsForest nodes) {n : Nat} {a : α} (h : F.At n a) : a ∈ nodes := by
  cases h with
  | root h => exact hF.mem _ _ h
  | child _ h => exact hF.mem _ _ h

theorem IsForest.parent_some (hF : F.IsForest nodes) {a b c : α} (ha : a ∈ nodes) (hb : b ∈ nodes)
    (hac : c ∈ F.children (some a)) (hbc : c ∈ F.children (some b)) : a = b :=
  Option.some.inj (hF.parent _ _ c (by simpa using ha) (by simpa using hb) hac hbc)

theorem IsForest.not_root (hF : F.IsForest nodes) {a b : α} (ha : a ∈ nodes)
    (hab : b ∈ F.children (some a)) : b ∉ F.children none :=
  fun hb => by cases hF.parent none (some a) b (by simp) (by simpa using ha) hb hab

theorem At.unique (hF : F.IsForest nodes) {n m : Nat} {a : α} (h : F.At n a) (h' : F.At m a) :
    n = m := by
  induction h generalizing m with
  | root ha =>
    cases h' with
    | root => rfl
    | child hc hb => exact absurd ha (hF.not_root (hc.mem hF) hb)
  | child hc hb ih =>
    cases h' with
    | root ha => exact absurd ha (hF.not_root (hc.mem hF) hb)
    | child hc' hb' =>
      obtain rfl := hF.parent_some (hc.mem hF) (hc'.mem hF) hb hb'
      rw [ih hc']

/-- The way down to a node visits no node twice, so it is no longer than there are
nodes. -/
theorem At.lt_length (hF : F.IsForest nodes) {n : Nat} {a : α} (h : F.At n a) :
    n < nodes.length := by
  have hPath : ∃ path : List α, path.Nodup ∧ path.length = n + 1 ∧
      ∀ b ∈ path, ∃ k ≤ n, F.At k b := by
    induction h with
    | @root a h =>
      refine ⟨[a], List.nodup_singleton a, rfl, ?_⟩
      intro b hb
      obtain rfl := List.mem_singleton.mp hb
      exact ⟨0, le_rfl, .root h⟩
    | @child n a b ha h ih =>
      obtain ⟨path, hNodup, hLength, hAt⟩ := ih
      refine ⟨b :: path, List.nodup_cons.mpr ⟨?_, hNodup⟩, by simp [hLength], ?_⟩
      · intro hb
        obtain ⟨k, hk, hbk⟩ := hAt b hb
        have hDepth := hbk.unique hF (.child ha h)
        omega
      · intro c hc
        rcases List.mem_cons.mp hc with rfl | hc
        · exact ⟨n + 1, le_rfl, .child ha h⟩
        · obtain ⟨k, hk, hck⟩ := hAt c hc
          exact ⟨k, by omega, hck⟩
  obtain ⟨path, hNodup, hLength, hAt⟩ := hPath
  have hSubset : path ⊆ nodes := fun b hb => (hAt b hb).choose_spec.2.mem hF
  have hBound := (List.subperm_of_subset hNodup hSubset).length_le
  omega

/-- Deep enough, the recursion walks. -/
theorem walks_inOrder (hF : F.IsForest nodes) (depth n : Nat) (siblings : List α)
    (hAt : ∀ a ∈ siblings, F.At n a) (hDepth : nodes.length ≤ n + depth) :
    F.Walks siblings (siblings.flatMap (F.inOrder depth)) := by
  induction depth generalizing n siblings with
  | zero =>
    cases siblings with
    | nil => exact .nil
    | cons a _ =>
      have hLt := (hAt a (by simp)).lt_length hF
      omega
  | succ depth ih =>
    induction siblings with
    | nil => exact .nil
    | cons a siblings ihRest =>
      have ha := hAt a (by simp)
      have hChildren : ∀ b ∈ F.children (some a), F.At (n + 1) b := fun b hb => .child ha hb
      have hLeft := ih (n + 1) (F.left (some a))
        (fun b hb => hChildren b (List.mem_append_left _ hb)) (by omega)
      have hRight := ih (n + 1) (F.right (some a))
        (fun b hb => hChildren b (List.mem_append_right _ hb)) (by omega)
      have hRest := ihRest fun b hb => hAt b (List.mem_cons_of_mem a hb)
      simpa only [List.flatMap_cons, inOrder, List.append_assoc, List.cons_append] using
        Walks.cons hLeft hRight hRest

theorem walks_order (hF : F.IsForest nodes) {depth : Nat} (hDepth : nodes.length ≤ depth) :
    F.Walks (F.children none) (F.order depth) :=
  walks_inOrder hF depth 0 _ (fun _ ha => .root ha) (by omega)

def Below (F : Forest α) : α → α → Prop :=
  Relation.ReflTransGen fun a b => b ∈ F.children (some a)

theorem Walks.mem_below {siblings out : List α} (h : F.Walks siblings out) {b : α} (hb : b ∈ out) :
    ∃ a ∈ siblings, F.Below a b := by
  induction h with
  | nil => cases hb
  | @cons a siblings ls rs out _ _ _ ihLeft ihRight ihRest =>
    simp only [List.mem_append, List.mem_cons] at hb
    rcases hb with hb | rfl | hb | hb
    · obtain ⟨c, hc, hBelow⟩ := ihLeft hb
      exact ⟨a, by simp, .head (List.mem_append_left _ hc) hBelow⟩
    · exact ⟨b, by simp, .refl⟩
    · obtain ⟨c, hc, hBelow⟩ := ihRight hb
      exact ⟨a, by simp, .head (List.mem_append_right _ hc) hBelow⟩
    · obtain ⟨c, hc, hBelow⟩ := ihRest hb
      exact ⟨c, List.mem_cons_of_mem a hc, hBelow⟩

theorem Below.at_ge {a b : α} (h : F.Below a b) {n : Nat} (ha : F.At n a) :
    ∃ m ≥ n, F.At m b := by
  induction h with
  | refl => exact ⟨n, le_rfl, ha⟩
  | tail _ hb ih =>
    obtain ⟨m, hm, hAt⟩ := ih
    exact ⟨m + 1, by omega, .child hAt hb⟩

theorem Below.mem (hF : F.IsForest nodes) {a b : α} (h : F.Below a b) (ha : a ∈ nodes) :
    b ∈ nodes := by
  cases h with
  | refl => exact ha
  | tail _ hb => exact hF.mem _ _ hb

theorem Below.total (hF : F.IsForest nodes) {a b c : α} (ha : a ∈ nodes) (hb : b ∈ nodes)
    (hac : F.Below a c) (hbc : F.Below b c) : F.Below a b ∨ F.Below b a := by
  induction hac with
  | refl => exact .inr hbc
  | @tail d c had hdc ih =>
    cases hbc with
    | refl => exact .inl (had.tail hdc)
    | tail hbe hec =>
      obtain rfl := hF.parent_some (Below.mem hF had ha) (Below.mem hF hbe hb) hdc hec
      exact ih hbe

/-- Two nodes of one depth have nothing below them in common. -/
theorem Below.eq_of_at (hF : F.IsForest nodes) {a b c : α} {n : Nat} (ha : F.At n a)
    (hb : F.At n b) (hac : F.Below a c) (hbc : F.Below b c) : a = b := by
  have hStep : ∀ {x y : α}, F.At n x → F.At n y → F.Below x y → x = y := by
    intro x y hx hy hxy
    cases hxy using Relation.ReflTransGen.head_induction_on with
    | refl => rfl
    | head h hTail =>
      obtain ⟨m, hm, hAt⟩ := Below.at_ge hTail (.child hx h)
      have hSame := hy.unique hF hAt
      omega
  rcases Below.total hF (ha.mem hF) (hb.mem hF) hac hbc with hab | hba
  · exact hStep ha hb hab
  · exact (hStep hb ha hba).symm

theorem Walks.nodup (hF : F.IsForest nodes) {siblings out : List α} (h : F.Walks siblings out)
    {n : Nat} (hAt : ∀ a ∈ siblings, F.At n a) (hNodup : siblings.Nodup) : out.Nodup := by
  induction h generalizing n with
  | nil => exact List.nodup_nil
  | @cons a siblings ls rs out hLeft hRight hRest ihLeft ihRight ihRest =>
    have ha := hAt a (by simp)
    have hChild : ∀ b ∈ F.children (some a), F.At (n + 1) b := fun b hb => .child ha hb
    have hSides := List.nodup_append.mp (hF.nodup (some a) (by simpa using ha.mem hF))
    have hl : ∀ b ∈ F.left (some a), F.At (n + 1) b :=
      fun b hb => hChild b (List.mem_append_left _ hb)
    have hr : ∀ b ∈ F.right (some a), F.At (n + 1) b :=
      fun b hb => hChild b (List.mem_append_right _ hb)
    have hDeep : ∀ {xs zs : List α}, F.Walks xs zs → (∀ b ∈ xs, F.At (n + 1) b) →
        a ∉ zs := by
      intro xs zs hWalk hxs hIn
      obtain ⟨b, hb, hBelow⟩ := hWalk.mem_below hIn
      obtain ⟨m, hm, hAt'⟩ := hBelow.at_ge (hxs b hb)
      have hSame := ha.unique hF hAt'
      omega
    have hOver : ∀ {xs zs : List α} {c : α}, F.Walks xs zs → xs ⊆ F.children (some a) →
        c ∈ zs → F.Below a c := by
      intro xs zs c hWalk hSub hc
      obtain ⟨b, hb, hBelow⟩ := hWalk.mem_below hc
      exact .head (hSub hb) hBelow
    have hApart : ∀ c, F.Below a c → c ∉ out := by
      intro c hac hc
      obtain ⟨b, hb, hBelow⟩ := hRest.mem_below hc
      obtain rfl := Below.eq_of_at hF ha (hAt b (List.mem_cons_of_mem a hb)) hac hBelow
      exact (List.nodup_cons.mp hNodup).1 hb
    refine List.nodup_append.mpr ⟨ihLeft hl hSides.1, ?_, ?_⟩
    · refine List.nodup_cons.mpr ⟨?_, List.nodup_append.mpr ⟨ihRight hr hSides.2.1, ?_, ?_⟩⟩
      · intro hIn
        rcases List.mem_append.mp hIn with hIn | hIn
        · exact hDeep hRight hr hIn
        · exact hApart a .refl hIn
      · exact ihRest (fun b hb => hAt b (List.mem_cons_of_mem a hb)) (List.nodup_cons.mp hNodup).2
      · rintro c hc d hd rfl
        exact hApart c (hOver hRight (List.subset_append_right _ _) hc) hd
    · rintro c hc d hd rfl
      rcases List.mem_cons.mp hd with rfl | hd
      · exact hDeep hLeft hl hc
      · rcases List.mem_append.mp hd with hd | hd
        · obtain ⟨x, hx, hxc⟩ := hLeft.mem_below hc
          obtain ⟨y, hy, hyc⟩ := hRight.mem_below hd
          obtain rfl := Below.eq_of_at hF (hl x hx) (hr y hy) hxc hyc
          exact hSides.2.2 x hx x hy rfl
        · exact hApart c (hOver hLeft (List.subset_append_left _ _) hc) hd

/-- With two steps for every node and one for the root, the stack machine ends at
the walk, which emits no node twice. -/
theorem loop_root (hF : F.IsForest nodes) {fuel : Nat} (hFuel : 2 * nodes.length + 1 ≤ fuel) :
    ∃ out, F.loop fuel [.expand none] [] = some out ∧ F.Walks (F.children none) out ∧
      out.Nodup := by
  have hWalk := walks_order hF (le_refl nodes.length)
  have hNodup := hWalk.nodup hF (fun _ ha => .root ha) (hF.nodup none (by simp))
  refine ⟨_, ?_, hWalk, hNodup⟩
  have hSubset : F.order nodes.length ⊆ nodes := by
    intro b hb
    obtain ⟨a, ha, hBelow⟩ := hWalk.mem_below hb
    obtain ⟨m, -, hAt⟩ := hBelow.at_ge (.root ha)
    exact hAt.mem hF
  have hLength := (List.subperm_of_subset hNodup hSubset).length_le
  obtain ⟨rest, rfl⟩ := Nat.exists_eq_add_of_le
    (show 2 * (F.order nodes.length).length + 1 ≤ fuel by omega)
  have hLoop := hWalk.loop rest [] []
  rw [children, List.map_append, List.append_assoc] at hLoop
  rw [show 2 * (F.order nodes.length).length + 1 + rest =
    (2 * (F.order nodes.length).length + rest) + 1 by omega, Forest.loop]
  simp only [Option.map_none, Option.toList_none, List.nil_append] at hLoop ⊢
  rw [hLoop]
  cases rest <;> rfl

end Forest

end CrdtSync.Lib
