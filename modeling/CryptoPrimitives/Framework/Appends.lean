import Mathlib.Control.Basic
import Mathlib.Data.List.Basic

/-!
# Programs that append to a list

A program that is given a list and returns a longer one `Appends` when it puts the same
elements behind every list. Sequences and loops of such programs append
(`Appends.bind`, `Appends.foldlM`), and a loop appends what its steps do, one after another
(`Appends.foldlM_nil`).
-/

section

variable {m : Type → Type} [Monad m] [LawfulMonad m] {α β : Type}

/-- `f` puts what it returns for the empty list behind the list it is given. -/
def Appends (f : List β → m (List β)) : Prop := ∀ dest, f dest = (dest ++ ·) <$> f []

theorem Appends.pure (ys : List β) : Appends fun dest => (Pure.pure (dest ++ ys) : m (List β)) := fun dest => by
  rw [map_pure, List.nil_append]

theorem Appends.bind {f g : List β → m (List β)} (hf : Appends f) (hg : Appends g) :
    Appends fun dest => f dest >>= g := fun dest => by
  show f dest >>= g = (dest ++ ·) <$> (f [] >>= g)
  rw [hf dest, map_eq_pure_bind, bind_assoc, map_bind]
  refine bind_congr fun ys => ?_
  rw [pure_bind, hg (dest ++ ys), hg ys, ← comp_map]
  exact congrArg (· <$> g []) (funext fun zs => List.append_assoc ..)

/-- A program that runs another one before it appends. -/
theorem Appends.of_bind {x : m α} {f : α → List β → m (List β)} (hf : ∀ a, Appends (f a)) :
    Appends fun dest => x >>= fun a => f a dest := fun dest => by
  rw [map_bind]
  exact bind_congr fun a => hf a dest

/-! ## Loops -/

/-- A loop that appends one element in each step. -/
theorem foldlM_append_singleton (f : α → β) (xs : List α) (dest : List β) :
    xs.foldlM (fun dest x => pure (dest ++ [f x])) dest = (pure (dest ++ xs.map f) : m (List β)) := by
  rw [List.foldlM_pure, List.foldl_append_eq_append, ← List.flatMap_def, ← List.map_eq_flatMap]

variable {f : α → List β → m (List β)}

theorem Appends.foldlM {xs : List α} (h : ∀ x ∈ xs, Appends (f x)) :
    Appends fun dest => xs.foldlM (fun dest x => f x dest) dest := by
  induction xs with
  | nil =>
    simp only [List.foldlM_nil]
    exact fun dest => by rw [map_pure, List.append_nil]
  | cons x xs ih =>
    simp only [List.foldlM_cons]
    exact (h x List.mem_cons_self).bind (ih fun y hy => h y (List.mem_cons_of_mem _ hy))

theorem Appends.foldlM_nil {xs : List α} (h : ∀ x ∈ xs, Appends (f x)) :
    xs.foldlM (fun dest x => f x dest) [] = List.flatten <$> xs.mapM fun x => f x [] := by
  induction xs with
  | nil => rw [List.foldlM_nil, List.mapM_nil, map_pure]; rfl
  | cons x xs ih =>
    have hxs : ∀ y ∈ xs, Appends (f y) := fun y hy => h y (List.mem_cons_of_mem _ hy)
    rw [List.foldlM_cons, List.mapM_cons, map_bind]
    refine bind_congr fun ys => ?_
    have happend : xs.foldlM (fun dest x => f x dest) ys = (ys ++ ·) <$> xs.foldlM (fun dest x => f x dest) [] :=
      Appends.foldlM hxs ys
    rw [happend, ih hxs, map_bind, ← comp_map, map_eq_pure_bind]
    refine bind_congr fun yss => ?_
    rw [map_pure]
    rfl

/-- A loop that appends what a program returns for each entry. -/
theorem foldlM_append_eq (g : α → m (List β)) (xs : List α) :
    (xs.foldlM (fun dest x => do
      let ys ← g x
      pure (dest ++ ys)) []) = List.flatten <$> xs.mapM g := by
  have happends : ∀ x ∈ xs, Appends fun dest => g x >>= fun ys => pure (dest ++ ys) :=
    fun x _ => .of_bind fun ys => .pure ys
  refine (Appends.foldlM_nil happends).trans ?_
  simp only [List.nil_append, bind_pure]

end
