import Xv6.Proc.SleepWakeup

/-!
# Waiting for conditions

A rule for code that sleeps under condition locks.
-/

namespace Xv6.Proc

open Transition
open Vm (ProcState)

variable {n : Nat} {Lock Chan L D : Type}

/-- A process ends. -/
def View.exit (v : View n D) (p : Fin n) (data : D) : View n D :=
  { v with life := Function.update v.life p .zombie, data := data }

/-- A process is killed. -/
def View.kill (v : View n D) (p : Fin n) : View n D :=
  { v with killed := Function.update v.killed p true }

inductive Client.Effect (c : Client n Lock Chan L D) (p : Fin n) :
    Option Lock → L → View n D → View n D → Prop
  | outside {free l v l' v'} (alive : v.life p = .live) (act : c.outside p free l v l' v') :
      Effect c p none l v v'
  | go {free lk l v l' v'} (alive : v.life p = .live) (act : c.code p free lk l v (.go l' v')) :
      Effect c p (some lk) l v v'
  | exit {free lk l v l' data} (alive : v.life p = .live)
      (act : c.code p free lk l v (.exit l' data)) : Effect c p (some lk) l v (v.exit p data)

theorem alive_of_running {s : System n Lock Chan L D} {p : Fin n}
    (running : (s.table p).state = .RUNNING) : s.view.life p = .live := by
  simp only [System.view, running]
  rfl

theorem Coherent.alive_inside {s : System n Lock Chan L D} {p : Fin n} {lk : Lock} {l : L}
    (coherent : Coherent s) (here : s.place p = .inside lk l) : s.view.life p = .live := by
  have fits := coherent.fits p
  rw [here] at fits
  exact alive_of_running fits

structure Contract (c : Client n Lock Chan L D) where
  Inv : View n D → Prop
  Local : Fin n → Option Lock → L → View n D → Prop
  Waits : Lock → Chan → View n D → Prop
  Allows : Lock → L → View n D → Chan → Prop
  effect_inv : ∀ {p o l v v'}, c.Effect p o l v v' → Inv v → Local p o l v → Inv v'
  effect_local : ∀ {p o l v v' q o' l'}, c.Effect p o l v v' → Inv v → Local p o l v → q ≠ p →
    (∀ lk, o' = some lk → o ≠ some lk) → Local q o' l' v → Local q o' l' v'
  effect_waits : ∀ {p o l v v' lk chan}, c.Effect p o l v v' → Inv v → Local p o l v →
    o ≠ some lk → Waits lk chan v → Waits lk chan v'
  effect_allows : ∀ {p o l v v' lk l' chan}, c.Effect p o l v v' → Inv v → Local p o l v →
    o ≠ some lk → Allows lk l' v chan → Allows lk l' v' chan
  kill_inv : ∀ {p v}, Inv v → Inv (v.kill p)
  kill_own : ∀ {p o l v}, c.mayKill p o l → Local p o l v → Local p o l (v.kill p)
  kill_local : ∀ {p q o l v}, q ≠ p → Local q o l v → Local q o l (v.kill p)
  kill_waits : ∀ {p v lk chan}, Waits lk chan v → Waits lk chan (v.kill p)
  kill_allows : ∀ {p v lk l chan}, Allows lk l v chan → Allows lk l (v.kill p) chan
  outside : ∀ {p free l v l' v'}, c.outside p free l v l' v' → Inv v → Local p none l v →
    Local p none l' v'
  enter : ∀ {p l v lk l'}, c.enter p l v lk l' → Inv v → Local p none l v →
    Local p (some lk) l' v ∧ ∀ chan, Waits lk chan v → Allows lk l' v chan
  go : ∀ {p free lk l v l' v'}, c.code p free lk l v (.go l' v') → Inv v → Local p (some lk) l v →
    Local p (some lk) l' v' ∧ ∀ chan, Allows lk l v chan → Allows lk l' v' chan
  wakeup : ∀ {p free lk l v chan l'}, c.code p free lk l v (.wakeup chan l') → Inv v →
    Local p (some lk) l v → Local p (some lk) l' v ∧
      ∀ other, other ≠ chan → Allows lk l v other → Allows lk l' v other
  sleep : ∀ {p free lk l v chan l'}, c.code p free lk l v (.sleep chan l') → Inv v →
    Local p (some lk) l v → Local p none l' v ∧ Waits lk chan v ∧
      (∀ other, Allows lk l v other → Waits lk other v) ∧
      ∀ v', Inv v' → Local p none l' v' →
        Local p (some lk) l' v' ∧ ∀ other, Waits lk other v' → Allows lk l' v' other
  release : ∀ {p free lk l v l'}, c.code p free lk l v (.release l') → Inv v →
    Local p (some lk) l v → Local p none l' v ∧ ∀ chan, Allows lk l v chan → Waits lk chan v
  exit : ∀ {p free lk l v l' data}, c.code p free lk l v (.exit l' data) → Inv v →
    Local p (some lk) l v → Local p none l' (v.exit p data) ∧
      ∀ chan, Allows lk l v chan → Waits lk chan (v.exit p data)

namespace Contract

variable {c : Client n Lock Chan L D} (contract : Contract c)

def Resumes (p : Fin n) (lk : Lock) (l : L) : Prop :=
  ∀ v, contract.Inv v → contract.Local p none l v →
    contract.Local p (some lk) l v ∧ ∀ chan, contract.Waits lk chan v → contract.Allows lk l v chan

def LocalAt (p : Fin n) (v : View n D) : Place Lock Chan L → Prop
  | .outside l | .exiting _ l | .exited l => contract.Local p none l v
  | .inside lk l | .waking lk _ _ l => contract.Local p (some lk) l v
  | .drowsy lk _ l | .dozing lk _ l | .sleeping lk _ l | .returning lk l =>
    contract.Local p none l v ∧ contract.Resumes p lk l

def Justified (v : View n D) (lk : Lock) (chan : Chan) (p : Fin n) :
    Option (Place Lock Chan L) → Prop
  | some (.inside _ l) => contract.Allows lk l v chan
  | some (.waking _ chan' i l) => chan = chan' ∧ i ≤ p.val ∨ contract.Allows lk l v chan
  | _ => contract.Waits lk chan v

structure Kept (s : System n Lock Chan L D) : Prop where
  inv : contract.Inv s.view
  locals : ∀ p, contract.LocalAt p s.view (s.place p)
  justified : ∀ p lk chan, Waiting s p lk chan →
    contract.Justified s.view lk chan p ((s.holder lk).map s.place)

variable {contract} {s t : System n Lock Chan L D} {v v' : View n D} {lk : Lock} {chan : Chan}
  {p a : Fin n}

theorem Justified.mono {o : Option (Place Lock Chan L)} (justified : contract.Justified v lk chan p o)
    (waits : contract.Waits lk chan v → contract.Waits lk chan v')
    (allows : ∀ l, contract.Allows lk l v chan → contract.Allows lk l v' chan) :
    contract.Justified v' lk chan p o := by
  unfold Justified at justified ⊢
  split at justified
  · exact allows _ justified
  · exact justified.imp_right (allows _)
  · exact waits justified

theorem view_set {entry : Entry Chan} (alive : life entry.state = life (s.table p).state)
    (killed : entry.killed = (s.table p).killed) : (s.set p entry).view = s.view := by
  unfold System.view System.set
  congr 1
  · funext q
    by_cases same : q = p
    · subst same
      simpa using alive
    · simp [same]
  · funext q
    by_cases same : q = p
    · subst same
      simpa using killed
    · simp [same]

theorem life_wake [DecidableEq Chan] (entry : Entry Chan) :
    life (entry.wake chan).state = life entry.state := by
  unfold Entry.wake
  split
  · rename_i asleep
    rw [asleep.1]
    rfl
  · rfl

theorem killed_wake [DecidableEq Chan] (entry : Entry Chan) :
    (entry.wake chan).killed = entry.killed := by
  unfold Entry.wake
  split <;> rfl

theorem view_change (v : View n D) : (s.change v).view = v := by
  unfold System.view System.change
  congr 1
  · funext q
    by_cases same : v.life q = life (s.table q).state
    · simp [same]
    · simp only [if_neg same]
      cases v.life q <;> rfl
  · funext q
    by_cases same : v.life q = life (s.table q).state
    · simp [same]
    · simp [same]

theorem view_kill : (s.set p (s.table p).kill).view = s.view.kill p := by
  unfold System.view System.set View.kill
  congr 1
  · funext q
    by_cases same : q = p
    · subst same
      simp only [Function.update_self, Entry.kill]
      split
      · rename_i asleep
        rw [asleep]
        rfl
      · rfl
    · simp [same]
  · funext q
    by_cases same : q = p
    · subst same
      simp [Entry.kill]
    · simp [same]

variable {place : Place Lock Chan L} {l l' : L}

theorem view_exit {data : D} :
    ({ (s.move p place).set p { s.table p with state := .ZOMBIE } with
      data := data } : System n Lock Chan L D).view = s.view.exit p data := by
  unfold System.view System.set View.exit
  congr 1
  · funext q
    by_cases same : q = p
    · subst same
      simp [life]
    · simp [same, System.move]
  · funext q
    by_cases same : q = p
    · subst same
      simp
    · simp [same, System.move]

theorem view_move_set {state : ProcState} {on : Option Chan}
    (alive : life state = life (s.table p).state) :
    ((s.move p place).set p { s.table p with state := state, chan := on }).view = s.view :=
  view_set (s := s.move p place) alive rfl

theorem view_look [DecidableEq Chan] :
    ((s.move a place).set p ((s.table p).wake chan)).view = s.view :=
  view_set (s := s.move a place) (life_wake _) (killed_wake _)

theorem Kept.under (kept : contract.Kept s) (coherent : Coherent s)
    (holds : (s.place a).holding = some lk) (waiting : Waiting s p lk chan) :
    contract.Justified s.view lk chan p (some (s.place a)) := by
  have justified := kept.justified p lk chan waiting
  rwa [(coherent.locks lk a).mpr holds] at justified

theorem Kept.free (kept : contract.Kept s) (unlocked : s.holder lk = none)
    (waiting : Waiting s p lk chan) : contract.Waits lk chan s.view := by
  have justified := kept.justified p lk chan waiting
  rwa [unlocked] at justified

theorem Kept.local_of (kept : contract.Kept s) {o : Option Lock} {l : L} (here : s.place p = place)
    (known : contract.LocalAt p s.view place = contract.Local p o l s.view) :
    contract.Local p o l s.view := by
  rw [← known, ← here]
  exact kept.locals p

variable [DecidableEq Lock] [DecidableEq Chan]

theorem Kept.advance (kept : contract.Kept s) (coherent : Coherent s) (step : Step c s t) (a : Fin n)
    (inv : contract.Inv t.view)
    (frame : ∀ q, q ≠ a → ∀ o l, (∀ lk, o = some lk → (s.place a).holding ≠ some lk) →
      contract.Local q o l s.view → contract.Local q o l t.view)
    (waits : ∀ lk chan, (s.place a).holding ≠ some lk → contract.Waits lk chan s.view →
      contract.Waits lk chan t.view)
    (allows : ∀ lk l chan, (s.place a).holding ≠ some lk → contract.Allows lk l s.view chan →
      contract.Allows lk l t.view chan)
    (places : ∀ q, q ≠ a → t.place q = s.place q)
    (own : contract.LocalAt a t.view (t.place a))
    (holders : ∀ lk, (s.place a).holding ≠ some lk → (t.place a).holding ≠ some lk →
      t.holder lk = s.holder lk)
    (mine : ∀ lk, (s.place a).holding = some lk ∨ (t.place a).holding = some lk →
      ∀ p chan, Waiting t p lk chan →
        contract.Justified t.view lk chan p ((t.holder lk).map t.place)) :
    contract.Kept t := by
  refine ⟨inv, ?_, ?_⟩
  · intro q
    by_cases same : q = a
    · rw [same]
      exact own
    · have before := kept.locals q
      rw [places q same]
      -- A lock that the other process holds is not held by this one.
      have apart : ∀ lk, (s.place q).holding = some lk → (s.place a).holding ≠ some lk := by
        intro lk holds also
        have first := (coherent.locks lk q).mpr holds
        have second := (coherent.locks lk a).mpr also
        exact same (Option.some.inj (first.symm.trans second))
      cases here : s.place q with
      | inside lk l | waking lk chan i l =>
        rw [here] at before apart
        exact frame q same _ _ (fun lk' eq => apart lk' eq) before
      | outside l | exiting lk l | exited l =>
        rw [here] at before
        exact frame q same _ _ (by simp) before
      | drowsy lk chan l | dozing lk chan l | sleeping lk chan l | returning lk l =>
        rw [here] at before
        exact ⟨frame q same _ _ (by simp) before.1, before.2⟩
  · intro p lk chan waits'
    by_cases ours : (s.place a).holding = some lk ∨ (t.place a).holding = some lk
    · exact mine lk ours p chan waits'
    · obtain ⟨before, after⟩ := not_or.mp ours
      have waited : Waiting s p lk chan := by
        refine (waiting_step step waits').resolve_right ?_
        rintro ⟨l, l', inside, drowsy, -⟩
        by_cases same : p = a
        · subst same
          exact before (by rw [inside]; rfl)
        · rw [places p same, inside] at drowsy
          cases drowsy
      have justified := kept.justified p lk chan waited
      have same : (t.holder lk).map t.place = (s.holder lk).map s.place := by
        rw [holders lk before after]
        cases holder : s.holder lk with
        | none => rfl
        | some q =>
          have other : q ≠ a := by
            rintro rfl
            exact before ((coherent.locks lk q).mp holder)
          simp [places q other]
      rw [same]
      exact justified.mono (waits lk chan before) fun l => allows lk l chan before

/-- A step that leaves the view alone. -/
theorem Kept.advance_same (kept : contract.Kept s) (coherent : Coherent s) (step : Step c s t)
    (a : Fin n)
    (view : t.view = s.view) (places : ∀ q, q ≠ a → t.place q = s.place q)
    (own : contract.LocalAt a s.view (t.place a))
    (holders : ∀ lk, (s.place a).holding ≠ some lk → (t.place a).holding ≠ some lk →
      t.holder lk = s.holder lk)
    (mine : ∀ lk, (s.place a).holding = some lk ∨ (t.place a).holding = some lk →
      ∀ p chan, Waiting t p lk chan →
        contract.Justified s.view lk chan p ((t.holder lk).map t.place)) :
    contract.Kept t := by
  refine kept.advance coherent step a ?_ ?_ ?_ ?_ places ?_ holders ?_
  · rw [view]
    exact kept.inv
  · intro q _ o l _
    rw [view]
    exact id
  · intro lk chan _
    rw [view]
    exact id
  · intro lk l chan _
    rw [view]
    exact id
  · rw [view]
    exact own
  · rw [view]
    exact mine

theorem waited (step : Step c s t) (waiting : Waiting t p lk chan)
    (places : ∀ q, q ≠ a → t.place q = s.place q) (awake : ∀ l, t.place a ≠ .drowsy lk chan l) :
    Waiting s p lk chan := by
  refine (waiting_step step waiting).resolve_right ?_
  rintro ⟨l, l', inside, drowsy, -⟩
  by_cases same : p = a
  · subst same
    exact awake l' drowsy
  · rw [places p same, inside] at drowsy
    cases drowsy

theorem Kept.outside (kept : contract.Kept s) (coherent : Coherent s) {free : Fin n → Prop}
    (step : Step c s ((s.change v).move p (.outside l'))) (here : s.place p = .outside l)
    (alive : s.view.life p = .live) (act : c.outside p free l s.view l' v) :
    contract.Kept ((s.change v).move p (.outside l')) := by
  have known : contract.Local p none l s.view := kept.local_of here rfl
  have view : ((s.change v).move p (.outside l')).view = v := view_change v
  have effect := Client.Effect.outside alive act
  refine kept.advance coherent step p ?_ ?_ ?_ ?_ (fun q other => (same_move other).1) ?_
    (fun _ _ _ => rfl) ?_
  · rw [view]
    exact contract.effect_inv effect kept.inv known
  · intro q other o l'' _
    rw [view]
    exact contract.effect_local effect kept.inv known other (by simp)
  · intro lk chan _
    rw [view]
    exact contract.effect_waits effect kept.inv known (by simp)
  · intro lk l'' chan _
    rw [view]
    exact contract.effect_allows effect kept.inv known (by simp)
  · rw [view]
    simpa [System.move, LocalAt] using contract.outside act kept.inv known
  · rintro lk (before | after)
    · simp [here, Place.holding] at before
    · simp [System.move, Place.holding] at after

theorem Kept.effect (kept : contract.Kept s) (coherent : Coherent s) {l : L}
    (step : Step c s t) (here : s.place p = .inside lk l)
    (effect : c.Effect p (some lk) l s.view t.view) (places : ∀ q, q ≠ p → t.place q = s.place q)
    (under : (t.place p).holding = some lk) (own : contract.LocalAt p t.view (t.place p))
    (holders : t.holder = s.holder) (awake : ∀ chan l, t.place p ≠ .drowsy lk chan l)
    (mine : ∀ q chan, Waiting s q lk chan → contract.Allows lk l s.view chan →
      contract.Justified t.view lk chan q (some (t.place p))) :
    contract.Kept t := by
  have known : contract.Local p (some lk) l s.view := kept.local_of here rfl
  have holds : (s.place p).holding = some lk := by rw [here]; rfl
  refine kept.advance coherent step p ?_ ?_ ?_ ?_ places own (fun _ _ _ => by rw [holders]) ?_
  · exact contract.effect_inv effect kept.inv known
  · intro q other o l'' apart
    refine contract.effect_local effect kept.inv known other fun lk' same => ?_
    rw [← holds]
    exact apart lk' same
  · intro lk' chan other
    exact contract.effect_waits effect kept.inv known (by rwa [← holds])
  · intro lk' l'' chan other
    exact contract.effect_allows effect kept.inv known (by rwa [← holds])
  · intro lk' ours q chan waiting
    obtain rfl : lk = lk' := by
      rcases ours with same | same
      · rw [holds] at same
        exact Option.some.inj same
      · rw [under] at same
        exact Option.some.inj same
    have before := waited step waiting places (awake chan)
    have justified := kept.under coherent holds before
    rw [here] at justified
    rw [holders, (coherent.locks lk p).mpr holds]
    exact mine q chan before justified

theorem Kept.lock (kept : contract.Kept s) (coherent : Coherent s) {new : Place Lock Chan L} {l : L}
    (step : Step c s ((s.move p new).hold lk (some p))) (unlocked : s.holder lk = none)
    (idle : (s.place p).holding = none) (inside : new = .inside lk l)
    (own : contract.Local p (some lk) l s.view)
    (admits : ∀ chan, contract.Waits lk chan s.view → contract.Allows lk l s.view chan) :
    contract.Kept ((s.move p new).hold lk (some p)) := by
  subst inside
  have there : ((s.move p (.inside lk l)).hold lk (some p)).place p = .inside lk l := by
    simp [System.move, System.hold]
  refine kept.advance_same coherent step p rfl (fun q other => (same_move other).1) ?_ ?_ ?_
  · rw [there]
    exact own
  · intro lk' _ other
    rw [there] at other
    have different : lk' ≠ lk := fun same => other (by rw [same]; rfl)
    simp [System.move, System.hold, different]
  · intro lk' ours q chan waiting
    obtain rfl : lk = lk' := by
      rcases ours with before | after
      · rw [idle] at before
        cases before
      · rw [there] at after
        exact Option.some.inj after
    have before := waited step waiting (fun r other => (same_move other).1) (by rw [there]; simp)
    simpa [System.move, System.hold, Justified] using admits chan (kept.free unlocked before)

theorem Kept.unlock (kept : contract.Kept s) (coherent : Coherent s) {new : Place Lock Chan L}
    (step : Step c s ((s.move p new).hold lk none)) (holds : (s.place p).holding = some lk)
    (out : new.holding = none) (own : contract.LocalAt p s.view new)
    (settled : ∀ q chan, Waiting s q lk chan → contract.Waits lk chan s.view) :
    contract.Kept ((s.move p new).hold lk none) := by
  have there : ((s.move p new).hold lk none).place p = new := by simp [System.move, System.hold]
  refine kept.advance_same coherent step p rfl (fun q other => (same_move other).1) ?_ ?_ ?_
  · rw [there]
    exact own
  · intro lk' other _
    have different : lk' ≠ lk := fun same => other (by rw [holds, same])
    simp [System.move, System.hold, different]
  · intro lk' ours q chan waiting
    obtain rfl : lk = lk' := by
      rcases ours with before | after
      · rw [holds] at before
        exact Option.some.inj before
      · rw [there, out] at after
        cases after
    have before : Waiting s q lk chan := by
      refine waited step waiting (fun r other => (same_move other).1) fun l drowsy => ?_
      rw [there] at drowsy
      rw [drowsy] at out
      cases out
    simpa [System.move, System.hold, Justified] using settled q chan before

theorem Kept.within (kept : contract.Kept s) (coherent : Coherent s) (step : Step c s t)
    (new : Place Lock Chan L) (view : t.view = s.view) (before : (s.place p).holding = some lk)
    (after : new.holding = some lk) (own : contract.LocalAt p s.view new)
    (places : ∀ q, q ≠ p → t.place q = s.place q) (holders : t.holder = s.holder)
    (there : t.place p = new)
    (mine : ∀ q chan, Waiting t q lk chan → contract.Justified s.view lk chan q (some new)) :
    contract.Kept t := by
  refine kept.advance_same coherent step p view places ?_ (fun _ _ _ => by rw [holders]) ?_
  · rw [there]
    exact own
  · intro lk' ours q chan waiting
    obtain rfl : lk = lk' := by
      rcases ours with same | same
      · rw [before] at same
        exact Option.some.inj same
      · rw [there, after] at same
        exact Option.some.inj same
    rw [holders, (coherent.locks lk p).mpr before, Option.map_some, there]
    exact mine q chan waiting

theorem Kept.apart (kept : contract.Kept s) (coherent : Coherent s) (step : Step c s t)
    (new : Place Lock Chan L) (view : t.view = s.view) (before : (s.place p).holding = none)
    (after : new.holding = none) (own : contract.LocalAt p s.view new)
    (places : ∀ q, q ≠ p → t.place q = s.place q) (holders : t.holder = s.holder)
    (there : t.place p = new) : contract.Kept t := by
  refine kept.advance_same coherent step p view places ?_ (fun _ _ _ => by rw [holders]) ?_
  · rw [there]
    exact own
  · rintro lk' (same | same)
    · rw [before] at same
      cases same
    · rw [there, after] at same
      cases same

theorem Kept.kill (kept : contract.Kept s) (coherent : Coherent s)
    (step : Step c s (s.set p (s.table p).kill)) (free : s.free p)
    (may : c.mayKill p (s.place p).holding (s.place p).local_) :
    contract.Kept (s.set p (s.table p).kill) := by
  refine kept.advance coherent step p ?_ ?_ ?_ ?_ (fun _ _ => rfl) ?_ (fun _ _ _ => rfl) ?_
  · rw [view_kill]
    exact contract.kill_inv kept.inv
  · intro q other o l _
    rw [view_kill]
    exact contract.kill_local other
  · intro lk chan _
    rw [view_kill]
    exact contract.kill_waits
  · intro lk l chan _
    rw [view_kill]
    exact contract.kill_allows
  · have own := kept.locals p
    unfold System.free at free
    rw [view_kill]
    change contract.LocalAt p (s.view.kill p) (s.place p)
    cases here : s.place p with
    | outside l | inside lk l | waking lk chan i l =>
      rw [here] at own may
      exact contract.kill_own may own
    | sleeping lk chan l | returning lk l =>
      rw [here] at own may
      exact ⟨contract.kill_own may own.1, own.2⟩
    | drowsy lk chan l | dozing lk chan l | exiting lk l | exited l =>
      simp [here, Place.ownLock] at free
  · intro lk ours q chan waiting
    have before : Waiting s q lk chan := by
      refine (waiting_step step waiting).resolve_right ?_
      rintro ⟨l, l', inside, drowsy, -⟩
      rw [show (s.set p (s.table p).kill).place q = s.place q from rfl, inside] at drowsy
      cases drowsy
    rw [view_kill]
    exact (kept.justified q lk chan before).mono contract.kill_waits fun _ => contract.kill_allows

theorem Kept.go (kept : contract.Kept s) (coherent : Coherent s) (here : s.place p = .inside lk l)
    (act : c.code p s.free lk l s.view (.go l' v)) :
    contract.Kept ((s.change v).move p (.inside lk l')) := by
  have known : contract.Local p (some lk) l s.view := kept.local_of here rfl
  have view : ((s.change v).move p (.inside lk l')).view = v := view_change v
  have there : ((s.change v).move p (.inside lk l')).place p = .inside lk l' := by
    simp [System.move]
  refine kept.effect coherent (.go p lk l l' v here act) here ?_ (fun q other => (same_move other).1)
    ?_ ?_ rfl ?_ ?_
  · rw [view]
    exact .go (coherent.alive_inside here) act
  · rw [there]
    rfl
  · rw [there, view]
    exact (contract.go act kept.inv known).1
  · rw [there]
    simp
  · intro q chan _ allowed
    rw [there, view]
    exact (contract.go act kept.inv known).2 chan allowed

/-- The contract is kept when a process ends. -/
theorem Kept.exit (kept : contract.Kept s) (coherent : Coherent s) {data : D}
    (here : s.place p = .inside lk l) (act : c.code p s.free lk l s.view (.exit l' data)) :
    contract.Kept { (s.move p (.exiting lk l')).set p { s.table p with state := .ZOMBIE } with
      data := data } := by
  have known : contract.Local p (some lk) l s.view := kept.local_of here rfl
  obtain ⟨own, woken⟩ := contract.exit act kept.inv known
  refine kept.effect coherent (.exit p lk l l' data here act) here ?_
    (fun q other => (same_move other).1) ?_ ?_ rfl ?_ ?_
  · rw [view_exit]
    exact .exit (coherent.alive_inside here) act
  · simp [System.move, System.set, Place.holding]
  · rw [view_exit]
    simpa [System.move, System.set, LocalAt] using own
  · intro chan l''
    simp [System.move, System.set]
  · intro q chan _ allowed
    rw [view_exit]
    simpa [System.move, System.set, Justified] using woken chan allowed

theorem Kept.acquire (kept : contract.Kept s) (coherent : Coherent s)
    (here : s.place p = .outside l) (running : (s.table p).state = .RUNNING)
    (act : c.enter p l s.view lk l') (unlocked : s.holder lk = none) :
    contract.Kept ((s.move p (.inside lk l')).hold lk (some p)) := by
  have known : contract.Local p none l s.view := kept.local_of here rfl
  obtain ⟨own, admits⟩ := contract.enter act kept.inv known
  exact kept.lock coherent (.acquire p lk l l' here running act unlocked) unlocked
    (by rw [here]; rfl) rfl own admits

theorem Kept.reacquire (kept : contract.Kept s) (coherent : Coherent s) {l : L}
    (here : s.place p = .returning lk l) (running : (s.table p).state = .RUNNING)
    (unlocked : s.holder lk = none) :
    contract.Kept ((s.move p (.inside lk l)).hold lk (some p)) := by
  have resumes := kept.locals p
  rw [here] at resumes
  obtain ⟨own, admits⟩ := resumes.2 s.view kept.inv resumes.1
  exact kept.lock coherent (.reacquire p lk l here running unlocked) unlocked (by rw [here]; rfl)
    rfl own admits

theorem Kept.release (kept : contract.Kept s) (coherent : Coherent s)
    (here : s.place p = .inside lk l) (act : c.code p s.free lk l s.view (.release l')) :
    contract.Kept ((s.move p (.outside l')).hold lk none) := by
  have known : contract.Local p (some lk) l s.view := kept.local_of here rfl
  obtain ⟨own, settled⟩ := contract.release act kept.inv known
  refine kept.unlock coherent (.release p lk l l' here act) (by rw [here]; rfl) rfl own ?_
  intro q chan waiting
  have justified := kept.under coherent (by rw [here]; rfl) waiting
  rw [here] at justified
  exact settled chan justified

theorem Kept.sleep (kept : contract.Kept s) (coherent : Coherent s)
    (here : s.place p = .inside lk l) (act : c.code p s.free lk l s.view (.sleep chan l')) :
    contract.Kept (s.move p (.drowsy lk chan l')) := by
  have step : Step c s (s.move p (.drowsy lk chan l')) := .sleep p lk chan l l' here act
  have known : contract.Local p (some lk) l s.view := kept.local_of here rfl
  obtain ⟨own, waits, settled, resumes⟩ := contract.sleep act kept.inv known
  refine kept.within coherent step (.drowsy lk chan l') rfl (by rw [here]; rfl) rfl ⟨own, resumes⟩
    (fun q other => (same_move other).1) rfl (by simp [System.move]) ?_
  intro q chan' waiting
  rcases waiting_step step waiting with before | ⟨l₁, l₂, inside, drowsy, -⟩
  · have justified := kept.under coherent (by rw [here]; rfl) before
    rw [here] at justified
    exact settled chan' justified
  · obtain rfl : q = p := by
      have first := (coherent.locks lk q).mpr (by rw [inside]; rfl)
      have second := (coherent.locks lk p).mpr (by rw [here]; rfl)
      exact Option.some.inj (first.symm.trans second)
    simp only [System.move, Function.update_self, Place.drowsy.injEq] at drowsy
    rw [← drowsy.2.1]
    exact waits

theorem Kept.scan (kept : contract.Kept s) (coherent : Coherent s) (step : Step c s t)
    (old new : Place Lock Chan L) (here : s.place p = old) (view : t.view = s.view)
    (before : old.holding = some lk) (after : new.holding = some lk)
    (own : contract.LocalAt p s.view new) (places : ∀ q, q ≠ p → t.place q = s.place q)
    (holders : t.holder = s.holder) (there : t.place p = new)
    (awake : ∀ chan l, new ≠ .drowsy lk chan l)
    (mine : ∀ q chan, Waiting t q lk chan → Waiting s q lk chan →
      contract.Justified s.view lk chan q (some old) →
      contract.Justified s.view lk chan q (some new)) : contract.Kept t := by
  have holds : (s.place p).holding = some lk := by rw [here, before]
  refine kept.within coherent step new view holds after own places holders there ?_
  intro q chan waiting
  have waits := waited step waiting places (by rw [there]; exact awake chan)
  have justified := kept.under coherent holds waits
  rw [here] at justified
  exact mine q chan waiting waits justified

theorem Kept.wakeup (kept : contract.Kept s) (coherent : Coherent s)
    (here : s.place p = .inside lk l) (act : c.code p s.free lk l s.view (.wakeup chan l')) :
    contract.Kept (s.move p (.waking lk chan 0 l')) := by
  have known : contract.Local p (some lk) l s.view := kept.local_of here rfl
  obtain ⟨own, others⟩ := contract.wakeup act kept.inv known
  refine kept.scan coherent (.wakeup p lk chan l l' here act) _ (.waking lk chan 0 l') here rfl rfl
    rfl own (fun q other => (same_move other).1) rfl (by simp [System.move]) (by simp) ?_
  intro q chan' _ _ justified
  by_cases same : chan' = chan
  · exact Or.inl ⟨same, Nat.zero_le _⟩
  · exact Or.inr (others chan' same justified)

theorem Kept.skip (kept : contract.Kept s) (coherent : Coherent s) {l : L}
    (here : s.place p = .waking lk chan p l) :
    contract.Kept (s.move p (.waking lk chan (p + 1) l)) := by
  have own := kept.locals p
  rw [here] at own
  refine kept.scan coherent (.skip p lk chan l here) _ (.waking lk chan (p + 1) l) here rfl rfl rfl
    own (fun q other => (same_move other).1) rfl (by simp [System.move]) (by simp) ?_
  intro q chan' _ before justified
  have other := before.ne (q := p) (by rw [here]; rfl)
  refine justified.imp_left fun left => ⟨left.1, ?_⟩
  exact Nat.lt_of_le_of_ne left.2 fun eq => other (Fin.ext eq.symm)

theorem Kept.look (kept : contract.Kept s) (coherent : Coherent s) {r : Fin n} {l : L}
    (here : s.place p = .waking lk chan r l) (other : r ≠ p) (free : s.free r) :
    contract.Kept ((s.move p (.waking lk chan (r + 1) l)).set r ((s.table r).wake chan)) := by
  have own := kept.locals p
  rw [here] at own
  refine kept.scan coherent (.look p r lk chan l here other free) _ (.waking lk chan (r + 1) l) here
    view_look rfl rfl own (fun q other => (same_move other).1) rfl (by simp [System.move, System.set])
    (by simp) ?_
  intro q chan' waiting _ justified
  refine justified.imp_left fun left => ⟨left.1, ?_⟩
  refine Nat.lt_of_le_of_ne left.2 fun eq => ?_
  obtain rfl : r = q := Fin.ext eq
  obtain rfl := left.1
  exact not_waiting_look coherent other free waiting

theorem Kept.woke (kept : contract.Kept s) (coherent : Coherent s) {l : L}
    (here : s.place p = .waking lk chan n l) : contract.Kept (s.move p (.inside lk l)) := by
  have own := kept.locals p
  rw [here] at own
  refine kept.scan coherent (.woke p lk chan l here) _ (.inside lk l) here rfl rfl rfl own
    (fun q other => (same_move other).1) rfl (by simp [System.move]) (by simp) ?_
  intro q chan' _ _ justified
  exact justified.resolve_left fun left => absurd q.isLt (Nat.not_lt.mpr left.2)

theorem Kept.suspend (kept : contract.Kept s) (coherent : Coherent s) {l : L}
    (here : s.place p = .dozing lk chan l) :
    contract.Kept ((s.move p (.sleeping lk chan l)).set p
      { s.table p with state := .SLEEPING, chan := some chan }) := by
  have own := kept.locals p
  have fits := coherent.fits p
  rw [here] at own fits
  have view : ((s.move p (.sleeping lk chan l)).set p
      { s.table p with state := .SLEEPING, chan := some chan }).view = s.view :=
    view_move_set (by rw [show (s.table p).state = .RUNNING from fits]; rfl)
  exact kept.apart coherent (.suspend p lk chan l here) (.sleeping lk chan l) view
    (by rw [here]; rfl) rfl own (fun q other => (same_move other).1) rfl
    (by simp [System.move, System.set])

theorem Kept.resume (kept : contract.Kept s) (coherent : Coherent s) {l : L}
    (here : s.place p = .sleeping lk chan l) (runnable : (s.table p).state = .RUNNABLE) :
    contract.Kept ((s.move p (.returning lk l)).set p
      { s.table p with state := .RUNNING, chan := none }) := by
  have own := kept.locals p
  rw [here] at own
  have view : ((s.move p (.returning lk l)).set p
      { s.table p with state := .RUNNING, chan := none }).view = s.view :=
    view_move_set (by rw [runnable]; rfl)
  exact kept.apart coherent (.resume p lk chan l here runnable) (.returning lk l) view
    (by rw [here]; rfl) rfl own (fun q other => (same_move other).1) rfl
    (by simp [System.move, System.set])

theorem Kept.reschedule (kept : contract.Kept s) (coherent : Coherent s) {state : ProcState}
    (step : Step c s (s.set p { s.table p with state := state }))
    (alive : life state = life (s.table p).state)
    (here : (∃ l, s.place p = .outside l) ∨ ∃ lk l, s.place p = .returning lk l) :
    contract.Kept (s.set p { s.table p with state := state }) := by
  have idle : (s.place p).holding = none := by
    rcases here with ⟨l, here⟩ | ⟨lk, l, here⟩ <;> rw [here] <;> rfl
  exact kept.apart coherent step _ (view_set alive rfl) idle idle (kept.locals p) (fun _ _ => rfl)
    rfl rfl

/-- Every step keeps the contract. -/
theorem Kept.step (kept : contract.Kept s) (coherent : Coherent s) (step : Step c s t) :
    contract.Kept t := by
  have whole := step
  cases step with
  | outside p l l' v here running act =>
    exact kept.outside coherent whole here (alive_of_running running) act
  | go p lk l l' v here act => exact kept.go coherent here act
  | exit p lk l l' data here act => exact kept.exit coherent here act
  | acquire p lk l l' here running act unlocked =>
    exact kept.acquire coherent here running act unlocked
  | reacquire p lk l here running unlocked => exact kept.reacquire coherent here running unlocked
  | release p lk l l' here act => exact kept.release coherent here act
  | unlock p lk chan l here | leave p lk l here =>
    have own := kept.locals p
    rw [here] at own
    refine kept.unlock coherent whole (by rw [here]; rfl) rfl own ?_
    intro q chan waiting
    have justified := kept.under coherent (by rw [here]; rfl) waiting
    rwa [here] at justified
  | sleep p lk chan l l' here act => exact kept.sleep coherent here act
  | wakeup p lk chan l l' here act => exact kept.wakeup coherent here act
  | skip p lk chan l here => exact kept.skip coherent here
  | look p r lk chan l here other free => exact kept.look coherent here other free
  | woke p lk chan l here => exact kept.woke coherent here
  | suspend p lk chan l here => exact kept.suspend coherent here
  | resume p lk chan l here runnable => exact kept.resume coherent here runnable
  | yield p running here => exact kept.reschedule coherent whole (by rw [running]; rfl) here
  | pick p runnable here => exact kept.reschedule coherent whole (by rw [runnable]; rfl) here
  | gone p l here =>
    have own := kept.locals p
    rw [here] at own
    exact kept.apart coherent whole (.outside l) rfl (by rw [here]; rfl) rfl own
      (fun q other => (same_move other).1) rfl (by simp [System.move])
  | kill p free may => exact kept.kill coherent whole free may

inductive ViewStep (c : Client n Lock Chan L D) (s t : System n Lock Chan L D) : Prop
  | same (view : t.view = s.view)
  | kill (p : Fin n) (view : t.view = s.view.kill p)
  | outside (p : Fin n) (l l' : L) (here : s.place p = .outside l)
      (act : c.outside p s.free l s.view l' t.view)
  | go (p : Fin n) (lk : Lock) (l l' : L) (here : s.place p = .inside lk l)
      (there : t.place p = .inside lk l') (act : c.code p s.free lk l s.view (.go l' t.view))
  | exit (p : Fin n) (lk : Lock) (l l' : L) (data : D) (here : s.place p = .inside lk l)
      (act : c.code p s.free lk l s.view (.exit l' data)) (view : t.view = s.view.exit p data)

theorem view_step (coherent : Coherent s) (step : Step c s t) : ViewStep c s t := by
  cases step with
  | outside p l l' v here running act =>
    refine .outside p l l' here ?_
    rw [show ((s.change v).move p (.outside l')).view = v from view_change v]
    exact act
  | go p lk l l' v here act =>
    refine .go p lk l l' here (by simp [System.move]) ?_
    rw [show ((s.change v).move p (.inside lk l')).view = v from view_change v]
    exact act
  | exit p lk l l' data here act => exact .exit p lk l l' data here act view_exit
  | kill p free may => exact .kill p view_kill
  | look p r lk chan l here other free => exact .same view_look
  | suspend p lk chan l here =>
    have fits := coherent.fits p
    rw [here] at fits
    exact .same (view_move_set (by rw [show (s.table p).state = .RUNNING from fits]; rfl))
  | resume p lk chan l here runnable => exact .same (view_move_set (by rw [runnable]; rfl))
  | yield p running here => exact .same (view_set (by rw [running]; rfl) rfl)
  | pick p runnable here => exact .same (view_set (by rw [runnable]; rfl) rfl)
  | _ => exact .same rfl

theorem run_kept (contract : Contract c) (tame : c.Tame) (rest : AtRest s) (inv : contract.Inv s.view)
    (locals : ∀ p l, s.place p = .outside l → contract.Local p none l s.view)
    (run : Reaches (Step c) s t) : Coherent t ∧ contract.Kept t := by
  have start : contract.Kept s := by
    refine ⟨inv, fun p => ?_, fun p lk chan waiting => ?_⟩
    · obtain ⟨l, here⟩ := rest.outside p
      rw [here]
      exact locals p l here
    · obtain ⟨l, here⟩ := rest.outside p
      simp [Waiting, here] at waiting
  refine run.keeps (fun s => Coherent s ∧ contract.Kept s) ?_ ⟨rest.coherent, start⟩
  rintro before after ⟨coherent, kept⟩ step
  exact ⟨coherent.step tame step, kept.step coherent step⟩

end Contract

end Xv6.Proc
