import Conform.Run
import Conform.Schema.Reader

namespace Conform.OptionType

variable {m m' : Type → Type} [Monad m] [Monad m'] [MonadExceptOf ReadError m]
  [MonadExceptOf ReadError m']

/-- A relation between computations that every step of the reader keeps. -/
structure Congruence (r : (α : Type) → m α → m' α → Prop) : Prop where
  pure : ∀ {α : Type} (a : α), r α (pure a) (pure a)
  throw : ∀ {α : Type} (e : ReadError), r α (throw e) (throw e)
  bind : ∀ {α β : Type} {x : m α} {y : m' α} {f : α → m β} {g : α → m' β},
    r α x y → (∀ a, r β (f a) (g a)) → r β (x >>= f) (y >>= g)

namespace Congruence

variable {r : (α : Type) → m α → m' α → Prop}
variable {nested : Value → m Schema} {nested' : Value → m' Schema}

mutual

/-- Schemas inside a type are less deep than the type. -/
theorem read (hr : Congruence r) (v : Value)
    (h : ∀ s, s.depth < v.depth → r _ (nested s) (nested' s)) :
    r _ (OptionType.read nested v) (OptionType.read nested' v) := by
  rw [OptionType.read.eq_def, OptionType.read.eq_def nested']
  split
  next name =>
    split
    · exact hr.pure _
    · exact hr.throw _
  next name rest =>
    dsimp only
    split
    next n _ =>
      split
      · exact hr.pure _
      · exact hr.throw _
    next choices _ =>
      split
      · exact hr.pure _
      · exact hr.throw _
    next validator args _ =>
      split
      · split
        · exact hr.pure _
        · exact hr.throw _
      · exact hr.throw _
    next items _ =>
      simp only [Value.depth, Value.depthItems] at h
      refine hr.bind (readAll hr items fun s hs => h s (by omega)) fun ts => hr.pure _
    next item _ =>
      simp only [Value.depth, Value.depthItems] at h
      refine hr.bind (read hr item fun s hs => h s (by omega)) fun t => hr.pure _
    next items _ =>
      simp only [Value.depth, Value.depthItems] at h
      refine hr.bind (readAll hr items fun s hs => h s (by omega)) fun ts => hr.pure _
    next s _ =>
      simp only [Value.depth, Value.depthItems] at h
      exact hr.bind (h s (by omega)) fun t => hr.pure _
    next s _ =>
      simp only [Value.depth, Value.depthItems] at h
      exact hr.bind (h s (by omega)) fun t => hr.pure _
    next s _ =>
      simp only [Value.depth, Value.depthItems] at h
      exact hr.bind (h s (by omega)) fun t => hr.pure _
    next key value _ =>
      simp only [Value.depth, Value.depthItems] at h
      apply hr.bind (read hr key fun s hs => h s (by omega))
      intro t
      exact hr.bind (read hr value fun s hs => h s (by omega)) fun u => hr.pure _
    next name _ => exact hr.pure _
    next => exact hr.throw _
  next => exact hr.throw _
termination_by sizeOf v

theorem readAll (hr : Congruence r) (items : List Value)
    (h : ∀ s, s.depth ≤ Value.depthItems items → r _ (nested s) (nested' s)) :
    r _ (OptionType.readAll nested items) (OptionType.readAll nested' items) := by
  cases items with
  | nil =>
    rw [OptionType.readAll, OptionType.readAll]
    exact hr.pure _
  | cons item rest =>
    rw [OptionType.readAll, OptionType.readAll]
    simp only [Value.depthItems] at h
    apply hr.bind (read hr item fun s hs => h s (by omega))
    intro t
    apply hr.bind (readAll hr rest fun s hs => h s (by omega))
    intro ts
    exact hr.pure _
termination_by sizeOf items

end

/-- A relation between runs that sequencing keeps is kept by every step of a reader that may fail
on its own. -/
theorem of_run {r : (α : Type) → Run α → Run α → Prop}
    (hpure : ∀ {α : Type} (a : α), r α (Pure.pure a) (Pure.pure a))
    (hbind : ∀ {α β : Type} {x y : Run α} {f g : α → Run β},
      r α x y → (∀ a, r β (f a) (g a)) → r β (x >>= f) (y >>= g)) :
    Congruence fun (α : Type) (x y : ExceptT ReadError Run α) =>
      r (Except ReadError α) x.run y.run where
  pure _ := hpure _
  throw _ := hpure _
  bind {α β x y f g} hxy hfg := by
    rw [ExceptT.run_bind, ExceptT.run_bind]
    apply hbind hxy
    intro outcome
    cases outcome with
    | ok a => exact hfg a
    | error e => exact hpure _

end Congruence

end Conform.OptionType
