import CallForest.Store.Fault
import Mathlib.Data.List.Forall2

/-!
# Computations that may end in a fault

A computation in several steps has a result if each step has one, and then the results of the steps
are what the next steps go on with.
-/

namespace CallForest

variable {alpha beta gamma : Type}

theorem bind_eq_ok_iff {x : Except Fault alpha} {f : alpha -> Except Fault beta} {b : beta} :
    (x >>= f) = .ok b <-> exists a, x = .ok a ∧ f a = .ok b := by
  cases x with
  | error fault =>
      simp [bind, Except.bind]
  | ok a =>
      simp [bind, Except.bind]

theorem bind_congr_of_ok {x : Except Fault alpha} {f g : alpha -> Except Fault beta}
    (h : forall a, x = .ok a -> f a = g a) : (x >>= f) = x >>= g := by
  cases x with
  | error fault => rfl
  | ok a => exact h a rfl

theorem pure_eq_ok_iff {a b : alpha} :
    (pure a : Except Fault alpha) = .ok b <-> a = b := by
  simp [pure, Except.pure]

theorem bind_pure_eq_ok_iff {x : Except Fault alpha} {f : alpha -> beta} {b : beta} :
    (x >>= fun a => pure (f a)) = .ok b <-> exists a, x = .ok a ∧ f a = b := by
  simp only [bind_eq_ok_iff, pure_eq_ok_iff]

theorem mapM_eq_ok_iff {f : alpha -> Except Fault beta} {xs : List alpha} {ys : List beta} :
    xs.mapM f = .ok ys <-> List.Forall₂ (fun x y => f x = .ok y) xs ys := by
  induction xs generalizing ys with
  | nil =>
      rw [List.mapM_nil, pure_eq_ok_iff, List.forall₂_nil_left_iff]
      exact eq_comm
  | cons x xs ih =>
      rw [List.mapM_cons, List.forall₂_cons_left_iff, bind_eq_ok_iff]
      simp only [bind_pure_eq_ok_iff, ih]
      constructor
      · intro h
        rcases h with ⟨y, hy, zs, hzs, rfl⟩
        exact ⟨y, zs, hy, hzs, rfl⟩
      · intro h
        rcases h with ⟨y, zs, hy, hzs, rfl⟩
        exact ⟨y, hy, zs, hzs, rfl⟩

theorem exists_of_mem_forall₂ {r : alpha -> beta -> Prop} {xs : List alpha} {ys : List beta}
    (h : List.Forall₂ r xs ys) {x : alpha} (hx : x ∈ xs) : exists y, y ∈ ys ∧ r x y := by
  induction h with
  | nil => cases hx
  | cons hhead _ ih =>
      rcases List.mem_cons.mp hx with rfl | hx
      · exact ⟨_, List.mem_cons_self, hhead⟩
      · rcases ih hx with ⟨y, hy, hr⟩
        exact ⟨y, List.mem_cons_of_mem _ hy, hr⟩

theorem exists_forall₂_of_forall_mem {r : alpha -> beta -> Prop} {xs : List alpha}
    (h : forall x, x ∈ xs -> exists y, r x y) : exists ys, List.Forall₂ r xs ys := by
  induction xs with
  | nil => exact ⟨[], .nil⟩
  | cons x xs ih =>
      rw [List.forall_mem_cons] at h
      rcases h with ⟨⟨y, hy⟩, hxs⟩
      rcases ih hxs with ⟨ys, hys⟩
      exact ⟨y :: ys, .cons hy hys⟩

theorem eq_of_forall₂ {r r' : alpha -> beta -> Prop} {xs : List alpha}
    {ys zs : List beta} (hsame : forall x y z, r x y -> r' x z -> z = y)
    (h : List.Forall₂ r xs ys) (h' : List.Forall₂ r' xs zs) : zs = ys := by
  induction h generalizing zs with
  | nil =>
      cases h'
      rfl
  | cons hhead _ ih =>
      cases h' with
      | cons hhead' htail' => rw [hsame _ _ _ hhead hhead', ih htail']

theorem exists_of_mem_mapM {f : alpha -> Except Fault beta} {xs : List alpha} {ys : List beta}
    (h : xs.mapM f = .ok ys) {y : beta} (hy : y ∈ ys) : exists x, f x = .ok y := by
  rcases exists_of_mem_forall₂ (mapM_eq_ok_iff.mp h).flip hy with ⟨x, _, hx⟩
  exact ⟨x, hx⟩

theorem exists_mapM_eq_ok_iff {f : alpha -> Except Fault beta} {xs : List alpha} :
    (exists ys, xs.mapM f = .ok ys) <-> forall x, x ∈ xs -> exists y, f x = .ok y := by
  simp only [mapM_eq_ok_iff]
  constructor
  · intro h x hx
    rcases h with ⟨ys, hys⟩
    rcases exists_of_mem_forall₂ hys hx with ⟨y, _, hy⟩
    exact ⟨y, hy⟩
  · exact exists_forall₂_of_forall_mem

theorem mapM_map_eq_ok {f : beta -> Except Fault gamma} {g : alpha -> beta} {k : alpha -> gamma}
    {xs : List alpha} (h : forall x, x ∈ xs -> f (g x) = .ok (k x)) :
    (xs.map g).mapM f = .ok (xs.map k) := by
  rw [mapM_eq_ok_iff, List.forall₂_map_left_iff, List.forall₂_map_right_iff]
  exact List.forall₂_same.mpr h

theorem mapM_eq_ok_iff_map {f : alpha -> Except Fault beta} {p : alpha -> Prop} {k : alpha -> beta}
    (h : forall x y, f x = .ok y <-> p x ∧ y = k x) {xs : List alpha} {ys : List beta} :
    xs.mapM f = .ok ys <-> (forall x, x ∈ xs -> p x) ∧ ys = xs.map k := by
  induction xs generalizing ys with
  | nil =>
      rw [List.mapM_nil, pure_eq_ok_iff, List.map_nil]
      exact ⟨fun heq => ⟨fun _ hx => absurd hx List.not_mem_nil, heq.symm⟩, fun heq => heq.2.symm⟩
  | cons x xs ih =>
      simp only [List.mapM_cons, bind_eq_ok_iff, pure_eq_ok_iff, h, ih, List.forall_mem_cons,
        List.map_cons]
      constructor
      · intro hsteps
        rcases hsteps with ⟨_, ⟨hx, rfl⟩, _, ⟨hxs, rfl⟩, rfl⟩
        exact ⟨⟨hx, hxs⟩, rfl⟩
      · intro hsteps
        rcases hsteps with ⟨⟨hx, hxs⟩, rfl⟩
        exact ⟨_, ⟨hx, rfl⟩, _, ⟨hxs, rfl⟩, rfl⟩

theorem mapM_bind_pure_eq_ok_iff {f : alpha -> Except Fault beta} {k : beta -> gamma}
    {xs : List alpha} {zs : List gamma} :
    (xs.mapM fun x => f x >>= fun y => pure (k y)) = .ok zs <->
      exists ys, xs.mapM f = .ok ys ∧ zs = ys.map k := by
  induction xs generalizing zs with
  | nil =>
      simp only [List.mapM_nil, pure_eq_ok_iff, exists_eq_left', List.map_nil]
      exact eq_comm
  | cons x xs ih =>
      simp only [List.mapM_cons, bind_eq_ok_iff, pure_eq_ok_iff, ih]
      constructor
      · intro hsteps
        rcases hsteps with ⟨_, ⟨y, hy, rfl⟩, _, ⟨ys, hys, rfl⟩, rfl⟩
        exact ⟨y :: ys, ⟨y, hy, ys, hys, rfl⟩, rfl⟩
      · intro hsteps
        rcases hsteps with ⟨_, ⟨y, hy, ys, hys, rfl⟩, rfl⟩
        exact ⟨_, ⟨y, hy, rfl⟩, _, ⟨ys, hys, rfl⟩, rfl⟩

theorem mapM_append_eq_ok_iff {f : alpha -> Except Fault beta} {xs xs' : List alpha}
    {ys : List beta} :
    (xs ++ xs').mapM f = .ok ys <-> exists first last, xs.mapM f = .ok first ∧
      xs'.mapM f = .ok last ∧ first ++ last = ys := by
  rw [List.mapM_append, bind_eq_ok_iff]
  simp only [bind_pure_eq_ok_iff, exists_and_left]

theorem mapM_flatten_eq_ok {f : alpha -> Except Fault (List beta)}
    {k : beta -> Except Fault gamma} {xs : List alpha} {yss : List (List beta)}
    {zss : List (List gamma)} (h : xs.mapM f = .ok yss)
    (h' : (xs.mapM fun x => f x >>= fun ys => ys.mapM k) = .ok zss) :
    yss.flatten.mapM k = .ok zss.flatten := by
  rw [mapM_eq_ok_iff] at h h'
  induction h generalizing zss with
  | nil =>
      cases h'
      rfl
  | cons hhead _ ih =>
      cases h' with
      | cons hhead' htail' =>
          rcases bind_eq_ok_iff.mp hhead' with ⟨ys, hys, hzs⟩
          cases hhead.symm.trans hys
          rw [List.flatten_cons, List.flatten_cons, mapM_append_eq_ok_iff]
          exact ⟨_, _, hzs, ih htail', rfl⟩

theorem exists_mapM_of_step {f f' : alpha -> Except Fault beta} {look : beta -> gamma}
    {xs : List alpha} {ys : List beta} (h : xs.mapM f = .ok ys)
    (hstep : forall x y, f x = .ok y -> exists y', f' x = .ok y' ∧ look y' = look y) :
    exists ys', xs.mapM f' = .ok ys' ∧ ys'.map look = ys.map look := by
  simp only [mapM_eq_ok_iff] at h ⊢
  induction h with
  | nil => exact ⟨[], .nil, rfl⟩
  | cons hhead _ ih =>
      rcases hstep _ _ hhead with ⟨y', hy', hlook⟩
      rcases ih with ⟨ys', hys', hlooks⟩
      refine ⟨y' :: ys', .cons hy' hys', ?_⟩
      rw [List.map_cons, List.map_cons, hlook, hlooks]

theorem mapM_eq_ok_of_mem {f f' : alpha -> Except Fault beta} {xs : List alpha} {ys : List beta}
    (h : xs.mapM f = .ok ys)
    (hstep : forall x, x ∈ xs -> forall y, y ∈ ys -> f x = .ok y -> f' x = .ok y) :
    xs.mapM f' = .ok ys := by
  rw [mapM_eq_ok_iff] at h ⊢
  induction h with
  | nil => exact .nil
  | cons hhead _ ih =>
      refine .cons (hstep _ List.mem_cons_self _ List.mem_cons_self hhead) (ih ?_)
      intro x hx y hy
      exact hstep x (List.mem_cons_of_mem _ hx) y (List.mem_cons_of_mem _ hy)

end CallForest
