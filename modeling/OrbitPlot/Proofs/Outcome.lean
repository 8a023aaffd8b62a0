/-!
# Steps that may fail

When a step made of two steps succeeds, both do. Sweeps and scans only fail or succeed; reading a
term and running a program also have a state, which goes from the first step to the second; and
what is done outside the program goes from one state of the world to another.
-/

namespace OrbitPlot

universe u

namespace Except

variable {ε α β : Type u}

theorem bind_eq_ok_iff {x : Except ε α} {f : α → Except ε β} {b : β} :
    x >>= f = .ok b ↔ ∃ a, x = .ok a ∧ f a = .ok b := by
  cases x with
  | error e => exact ⟨nofun, nofun⟩
  | ok a => exact ⟨fun h ↦ ⟨a, rfl, h⟩, fun ⟨_, ha, h⟩ ↦ by cases ha; exact h⟩

theorem bind_eq_error_iff {x : Except ε α} {f : α → Except ε β} {e : ε} :
    x >>= f = .error e ↔ x = .error e ∨ ∃ a, x = .ok a ∧ f a = .error e := by
  cases x with
  | error e' => exact ⟨fun h ↦ .inl (by cases h; rfl), by rintro (h | ⟨_, h, _⟩) <;> cases h; rfl⟩
  | ok a => exact ⟨fun h ↦ .inr ⟨a, rfl, h⟩, by rintro (h | ⟨_, h, hf⟩) <;> cases h; exact hf⟩

theorem map_eq_ok_iff {x : Except ε α} {f : α → β} {b : β} :
    f <$> x = .ok b ↔ ∃ a, x = .ok a ∧ f a = b := by
  cases x with
  | error e => exact ⟨nofun, nofun⟩
  | ok a => exact ⟨fun h ↦ ⟨a, rfl, by cases h; rfl⟩, fun ⟨_, ha, h⟩ ↦ by cases ha; rw [← h]; rfl⟩

theorem map_map {γ : Type u} (f : α → β) (g : β → γ) (x : Except ε α) :
    g <$> f <$> x = (fun a ↦ g (f a)) <$> x := by
  cases x <;> rfl

theorem forM_eq_ok_iff {ε α : Type} {f : α → Except ε Unit} {xs : List α} :
    xs.forM f = .ok () ↔ ∀ x ∈ xs, f x = .ok () := by
  induction xs with
  | nil => exact ⟨nofun, fun _ ↦ rfl⟩
  | cons x xs ih =>
    rw [List.forall_mem_cons, ← ih, List.forM]
    rcases f x with e | ⟨⟨⟩⟩
    · exact ⟨nofun, nofun⟩
    · exact ⟨fun h ↦ ⟨rfl, h⟩, fun h ↦ h.2⟩

theorem mapError_eq_ok_iff {ε' : Type u} {f : ε → ε'} {x : Except ε α} {a : α} :
    x.mapError f = .ok a ↔ x = .ok a := by
  rcases x with e | b
  · exact ⟨nofun, nofun⟩
  · exact ⟨fun h ↦ by cases h; rfl, fun h ↦ by cases h; rfl⟩

theorem mapError_eq_error_iff {ε' : Type u} {f : ε → ε'} {x : Except ε α} {e : ε'} :
    x.mapError f = .error e ↔ ∃ e', x = .error e' ∧ f e' = e := by
  rcases x with e' | b
  · exact ⟨fun h ↦ ⟨e', rfl, by cases h; rfl⟩, fun ⟨_, hx, h⟩ ↦ by cases hx; rw [← h]; rfl⟩
  · exact ⟨nofun, nofun⟩

theorem exists_eq_ok_of_isOk {x : Except ε α} (h : x.isOk) : ∃ a, x = .ok a := by
  rcases x with e | a
  · cases h
  · exact ⟨a, rfl⟩

theorem eq_ok_of_toOption_eq_some {x : Except ε α} {a : α} (h : x.toOption = some a) :
    x = .ok a := by
  rcases x with e | b
  · cases h
  · cases h
    rfl

theorem exists_of_map_toOption_eq_some {x : Except ε α} {f : α → β} {b : β}
    (h : x.toOption.map f = some b) : ∃ a, x = .ok a ∧ f a = b := by
  obtain ⟨a, ha, hb⟩ := Option.map_eq_some_iff.1 h
  exact ⟨a, eq_ok_of_toOption_eq_some ha, hb⟩

end Except

namespace EStateM

variable {ε σ α β : Type u} {s t : σ}

theorem bind_eq_ok_iff {x : EStateM ε σ α} {f : α → EStateM ε σ β} {b : β} :
    (x >>= f) s = .ok b t ↔ ∃ a s', x s = .ok a s' ∧ f a s' = .ok b t := by
  change EStateM.bind x f s = _ ↔ _
  unfold EStateM.bind
  cases x s with
  | error e s' => exact ⟨nofun, nofun⟩
  | ok a s' => exact ⟨fun h ↦ ⟨a, s', rfl, h⟩, fun ⟨_, _, ha, h⟩ ↦ by cases ha; exact h⟩

theorem bind_of_eq_ok {x : EStateM ε σ α} {f : α → EStateM ε σ β} {a : α} {s' : σ}
    (h : x s = .ok a s') : (x >>= f) s = f a s' := by
  change EStateM.bind x f s = _
  rw [EStateM.bind, h]

theorem bind_of_eq_error {x : EStateM ε σ α} {f : α → EStateM ε σ β} {e : ε} {s' : σ}
    (h : x s = .error e s') : (x >>= f) s = .error e s' := by
  change EStateM.bind x f s = _
  rw [EStateM.bind, h]

theorem mapM_cons_eq_ok_iff {f : α → EStateM ε σ β} {x : α} {xs : List α} {ys : List β} :
    (x :: xs).mapM f s = .ok ys t ↔
      ∃ y ys' s', f x s = .ok y s' ∧ xs.mapM f s' = .ok ys' t ∧ ys = y :: ys' := by
  rw [List.mapM_cons]
  constructor
  · intro h
    obtain ⟨y, s', hy, h⟩ := bind_eq_ok_iff.1 h
    obtain ⟨ys', s'', hys, h⟩ := bind_eq_ok_iff.1 h
    cases h
    exact ⟨y, ys', s', hy, hys, rfl⟩
  · rintro ⟨y, ys', s', hy, hys, rfl⟩
    exact bind_eq_ok_iff.2 ⟨y, s', hy, bind_eq_ok_iff.2 ⟨ys', t, hys, rfl⟩⟩

theorem mapM_append_eq_ok_iff {f : α → EStateM ε σ β} {xs xs' : List α} {ys : List β} :
    (xs ++ xs').mapM f s = .ok ys t ↔
      ∃ zs zs' s', xs.mapM f s = .ok zs s' ∧ xs'.mapM f s' = .ok zs' t ∧ ys = zs ++ zs' := by
  rw [List.mapM_append]
  constructor
  · intro h
    obtain ⟨zs, s', hzs, h⟩ := bind_eq_ok_iff.1 h
    obtain ⟨zs', s'', hzs', h⟩ := bind_eq_ok_iff.1 h
    cases h
    exact ⟨zs, zs', s', hzs, hzs', rfl⟩
  · rintro ⟨zs, zs', s', hzs, hzs', rfl⟩
    exact bind_eq_ok_iff.2 ⟨zs, s', hzs, bind_eq_ok_iff.2 ⟨zs', t, hzs', rfl⟩⟩

theorem exists_append_of_mapM_eq_ok {f : α → EStateM ε σ β} {xs : List α} {ys ys' : List β}
    (h : xs.mapM f s = .ok (ys ++ ys') t) :
    ∃ zs zs' s', xs = zs ++ zs' ∧ zs.mapM f s = .ok ys s' ∧ zs'.mapM f s' = .ok ys' t := by
  induction ys generalizing xs s with
  | nil => exact ⟨[], xs, s, rfl, rfl, h⟩
  | cons y ys ih =>
    cases xs with
    | nil => cases h
    | cons x xs =>
      obtain ⟨y', rest, s', hy, hrest, heq⟩ := mapM_cons_eq_ok_iff.1 h
      cases heq
      obtain ⟨zs, zs', s'', rfl, hzs, hzs'⟩ := ih hrest
      exact ⟨x :: zs, zs', s'', rfl, mapM_cons_eq_ok_iff.2 ⟨y, ys, s', hy, hzs, rfl⟩, hzs'⟩

end EStateM

namespace EIO

variable {ε α β : Type} {w w' : Void IO.RealWorld} {a : α}

theorem bind_of_eq_ok {x : EIO ε α} {f : α → EIO ε β} {outcome : EST.Out ε IO.RealWorld β}
    (h : x w = .ok a w') (hf : f a w' = outcome) : (x >>= f) w = outcome := by
  change EST.bind x f w = _
  unfold EST.bind
  rw [h, ← hf]

theorem tryCatch_of_eq_ok {x : EIO ε α} {handle : ε → EIO ε α} (h : x w = .ok a w') :
    tryCatch x handle w = .ok a w' := by
  change EST.tryCatch x handle w = _
  unfold EST.tryCatch
  rw [h]

end EIO

end OrbitPlot
