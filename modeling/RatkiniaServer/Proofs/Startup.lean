import RatkiniaServer.Startup
import RatkiniaServer.Proofs.NetworkServer

/-!
# Pushes while the server is being built

The associated actor of a session is `A_Auth` or a registered actor. So a push finds its actor exactly
if `A_Auth` has been created by then, which is the last thing the constructor does.
-/

namespace RatkiniaServer.NetworkServer

variable {s s' r : NetworkServer} {t : Nat} {p q : Pc} {a : Action} {name : String}

/-! ## The names of actors -/

/-- The name of an actor that a thread is going to use. -/
def Pc.actorName : Pc → Option String
  | .change _ _ new | .changeLocked _ _ new => some new
  | .cleanupErased _ actor _ => actor
  | _ => none

/-- The name is that of an associated actor, or a thread is going to use it. -/
def Mentions (s : NetworkServer) (name : String) : Prop :=
  (∃ o, s.associatedActor o = name) ∨ ∃ t, (s.pc t).actorName = some name

theorem mentions_associatedActor (s : NetworkServer) (o : Nat) : s.Mentions (s.associatedActor o) :=
  Or.inl ⟨o, rfl⟩

theorem mentions_of_pc (h : (s.pc t).actorName = some name) : s.Mentions name := Or.inr ⟨t, h⟩

/-- A step of the thread `t`, as far as names are concerned, where `new` is the name that it is
given. -/
structure Names (s : NetworkServer) (t : Nat) (new : Option String) (p : Pc) (s' : NetworkServer) :
    Prop where
  pc : s'.pc = Function.update s.pc t p
  initial : s'.initialAssociatedActor = s.initialAssociatedActor
  actor : ∀ o, s.Mentions (s'.associatedActor o) ∨ s'.associatedActor o = s.initialAssociatedActor
  name : ∀ n, p.actorName = some n → s.Mentions n ∨ new = some n

/-- A step mentions no other names than those mentioned before, the one it is given and the initial
one. -/
theorem Names.mentions {new : Option String} (h : Names s t new p s') (hname : s'.Mentions name) :
    s.Mentions name ∨ name = s.initialAssociatedActor ∨ new = some name := by
  rcases hname with ⟨o, rfl⟩ | ⟨u, hu⟩
  · rcases h.actor o with ho | ho
    · exact Or.inl ho
    · exact Or.inr (Or.inl ho)
  · rw [h.pc] at hu
    rcases eq_or_ne u t with rfl | hne
    · rw [Function.update_self] at hu
      rcases h.name name hu with hn | hn
      · exact Or.inl hn
      · exact Or.inr (Or.inr hn)
    · rw [Function.update_of_ne hne] at hu
      exact Or.inl (mentions_of_pc hu)

/-- A step that leaves the associated actors alone and goes on without a name or with the same. -/
theorem Names.of_keep {new : Option String} (hpc : s'.pc = Function.update s.pc t p)
    (hinitial : s'.initialAssociatedActor = s.initialAssociatedActor)
    (hactor : s'.associatedActor = s.associatedActor)
    (hp : p.actorName = none ∨ p.actorName = (s.pc t).actorName) : Names s t new p s' := by
  refine ⟨hpc, hinitial, fun o => Or.inl (hactor ▸ mentions_associatedActor s o), fun n hn => ?_⟩
  rcases hp with hp | hp
  · rw [hp] at hn
    cases hn
  · rw [hp] at hn
    exact Or.inl (mentions_of_pc hn)

/-- A step of a thread takes its names from the state. -/
theorem Runs.names (h : Runs s t q p r) (hq : s.pc t = q) : Names s t none p (r.goto t p) := by
  cases h with
  | change => exact .of_keep rfl rfl rfl (Or.inr (by rw [hq]; rfl))
  | changeLocked context current new o =>
    -- The one step that changes an associated actor.
    refine ⟨rfl, rfl, fun o' => Or.inl ?_, nofun⟩
    change s.Mentions (Function.update s.associatedActor o new o')
    rcases eq_or_ne o' o with rfl | hne
    · rw [Function.update_self]
      exact mentions_of_pc (t := t) (by rw [hq]; rfl)
    · rw [Function.update_of_ne hne]
      exact mentions_associatedActor s o'
  | erase context held o hfound =>
    refine ⟨rfl, rfl, fun o' => Or.inl (mentions_associatedActor s o'), fun n hn => Or.inl ?_⟩
    exact Option.some.inj hn ▸ mentions_associatedActor s o
  | _ => exact .of_keep rfl rfl rfl (Or.inl rfl)

theorem names_of_runStep {answers : Answers} (hstep : s.runStep t answers = some s') :
    ∃ p, Names s t none p s' := by
  obtain ⟨p, r, h, rfl⟩ := runs_of_runStep hstep
  exact ⟨p, h.names rfl⟩

/-- A thread that begins takes its names from the state and from the call. -/
theorem Begins.names {handler : Handler} (h : Begins s handler p r) :
    Names s t handler.newActorName p (r.goto t p) := by
  cases h with
  | accept =>
    refine ⟨rfl, rfl, fun o => ?_, nofun⟩
    change s.Mentions (Function.update s.associatedActor s.created s.initialAssociatedActor o) ∨
      Function.update s.associatedActor s.created s.initialAssociatedActor o = _
    rcases eq_or_ne o s.created with rfl | hne
    · exact Or.inr (Function.update_self ..)
    · rw [Function.update_of_ne hne]
      exact Or.inl (mentions_associatedActor s o)
  | changeAssociatedActor | tryChangeAssociatedActor =>
    exact ⟨rfl, rfl, fun o => Or.inl (mentions_associatedActor s o), fun n hn => Or.inr hn⟩
  | _ => exact .of_keep rfl rfl rfl (Or.inl rfl)

theorem names_of_startStep {handler : Handler} (hstep : s.startStep t handler = some s') :
    ∃ p, Names s t handler.newActorName p s' := by
  obtain ⟨-, p, r, h, rfl⟩ := begins_of_startStep hstep
  exact ⟨p, h.names⟩

theorem names_of_step (hstep : s.step a = some s') : ∃ p, Names s a.thread a.newActorName p s' := by
  cases a with
  | start t handler => exact names_of_startStep hstep
  | run t answers => exact names_of_runStep hstep

/-! ## Pushes -/

theorem mentions_of_pushTarget (h : s.pushTarget a = some name) : s.Mentions name := by
  cases a with
  | start t handler => cases h
  | run t answers =>
    unfold pushTarget at h
    dsimp only at h
    split at h
    · obtain ⟨m, -, rfl⟩ := Option.map_eq_some_iff.mp h
      exact mentions_associatedActor s _
    · rename_i context actor held hq
      exact mentions_of_pc (t := t) (by rw [hq]; exact h)
    · cases h

/-- A push whose actor is found goes through. -/
theorem step_pushing (h : s.pushTarget a = some name) : ∃ s', s.step (a.pushing true) = some s' := by
  cases a with
  | start t handler => cases h
  | run t answers =>
    unfold pushTarget at h
    dsimp only at h
    simp only [Action.pushing, step, runStep]
    split at h
    · rename_i o value hq
      obtain ⟨m, hm, -⟩ := Option.map_eq_some_iff.mp h
      simp only [hq, hm]
      exact ⟨_, rfl⟩
    · rename_i context actor held hq
      subst h
      simp only [hq]
      exact ⟨_, rfl⟩
    · cases h

@[simp] theorem newActorName_pushing (a : Action) (delivered : Bool) :
    (a.pushing delivered).newActorName = a.newActorName := by
  cases a <;> rfl

end RatkiniaServer.NetworkServer

namespace RatkiniaServer.Startup

open Transition NetworkServer

variable {sizes : Sizes} {w w' : Startup} {a : Action} {b : NetworkServer.Action} {name : String}

/-! ## The invariant -/

/-- Every name in use is that of `A_Auth`, which is registered at the end, or that of a registered
actor. -/
structure Named (w : Startup) : Prop where
  mentions : ∀ name, w.network.Mentions name → name = authName ∨ name ∈ w.actors
  initial : w.network.initialAssociatedActor = authName
  actors : w.actors = if w.pc = .returned then [authName] else []

theorem named_initial : Named initial where
  mentions name h := by
    rcases h with ⟨o, rfl⟩ | ⟨t, ht⟩
    · exact Or.inl rfl
    · cases ht
  initial := rfl
  actors := rfl

/-- A push finds its actor exactly if the constructor is done. -/
theorem Named.tryPushMessageTo_iff (h : Named w) (htarget : w.network.pushTarget b = some name) :
    tryPushMessageTo w.actors name = true ↔ w.pc = .returned := by
  have hname := h.mentions name (mentions_of_pushTarget htarget)
  rw [h.actors] at hname ⊢
  by_cases hpc : w.pc = .returned
  · rw [if_pos hpc] at hname ⊢
    have : name = authName := by simpa using hname
    simp [tryPushMessageTo, this, hpc]
  · rw [if_neg hpc]
    simp [tryPushMessageTo, hpc]

/-- A step of the constructor leaves the server alone and registers `A_Auth` when it is done. -/
theorem construct_spec (h : w.construct sizes = some w') :
    w'.network = w.network ∧ w'.aborted = w.aborted ∧ w.pc ≠ .returned ∧
      w'.actors = if w'.pc = .returned then w.actors ++ [authName] else w.actors := by
  unfold construct at h
  split at h
  all_goals rename_i hpc
  all_goals rw [hpc]
  all_goals first
    | (split_ifs at h
       all_goals
         cases h
         exact ⟨rfl, rfl, by simp, by simp [hpc]⟩)
    | (cases h
       exact ⟨rfl, rfl, by simp, by simp [register]⟩)
    | cases h

/-- A step of the server is one of `NetworkServer`, or a push that does not find its actor. -/
theorem serve_spec (h : w.serve b = some w') :
    (∃ name, w.network.pushTarget b = some name ∧ tryPushMessageTo w.actors name = false ∧
      w' = { w with aborted := true }) ∨
    ∃ c network, c.newActorName = b.newActorName ∧ w.network.step c = some network ∧
      (∀ name, w.network.pushTarget b = some name → tryPushMessageTo w.actors name = true) ∧
      w' = { w with network := network } := by
  unfold serve at h
  split_ifs at h
  split at h
  · rename_i hnone
    obtain ⟨network, hstep, rfl⟩ := Option.map_eq_some_iff.mp h
    refine Or.inr ⟨b, network, rfl, hstep, fun name hname => ?_, rfl⟩
    rw [hnone] at hname
    cases hname
  · rename_i name htarget
    split_ifs at h with hfound
    · obtain ⟨network, hstep, rfl⟩ := Option.map_eq_some_iff.mp h
      refine Or.inr ⟨_, network, newActorName_pushing b true, hstep, fun name' hname' => ?_, rfl⟩
      rw [htarget] at hname'
      exact Option.some.inj hname' ▸ hfound
    · cases h
      exact Or.inl ⟨name, htarget, by simpa using hfound, rfl⟩

theorem named_construct (h : Named w) (hstep : w.construct sizes = some w') : Named w' := by
  obtain ⟨hnetwork, -, hpc, hactors⟩ := construct_spec hstep
  have hempty : w.actors = [] := by rw [h.actors, if_neg hpc]
  rw [hempty] at hactors
  refine ⟨fun name hname => ?_, by rw [hnetwork]; exact h.initial, by simpa using hactors⟩
  rw [hnetwork] at hname
  have hold := h.mentions name hname
  rw [hempty] at hold
  exact Or.inl (by simpa using hold)

theorem named_serve (h : Named w) (hnames : w.ChangesToRegistered (.serve b))
    (hstep : w.serve b = some w') : Named w' := by
  rcases serve_spec hstep with ⟨name, -, -, rfl⟩ | ⟨c, network, hc, hnetwork, -, rfl⟩
  · exact ⟨h.mentions, h.initial, h.actors⟩
  · obtain ⟨p, hp⟩ := names_of_step hnetwork
    refine ⟨fun name hname => ?_, hp.initial.trans h.initial, h.actors⟩
    rcases hp.mentions hname with hold | hinitial | hnew
    · exact h.mentions name hold
    · exact Or.inl (hinitial.trans h.initial)
    · rw [hc] at hnew
      exact Or.inr (hnames name hnew)

/-- A step that changes associated actors to registered ones keeps the invariant. -/
theorem named_step (h : Named w) (hnames : w.ChangesToRegistered a)
    (hstep : step sizes w a = some w') : Named w' := by
  unfold step at hstep
  split_ifs at hstep
  cases a with
  | construct => exact named_construct h hstep
  | serve b => exact named_serve h hnames hstep

/-! ## Exactness -/

/-- A step leads to an abort exactly if it pushes before the constructor is done. -/
theorem aborted_step_iff (h : Named w) (hP : w.aborted = false) (hstep : step sizes w a = some w') :
    w'.aborted = false ↔ w.PushesAfterCreate a := by
  unfold step at hstep
  rw [hP] at hstep
  cases a with
  | construct =>
    obtain ⟨-, haborted, -, -⟩ := construct_spec hstep
    rw [haborted]
    exact ⟨fun _ => nofun, fun _ => hP⟩
  | serve b =>
    rcases serve_spec hstep with ⟨name, htarget, hfound, rfl⟩ | ⟨c, network, -, -, hfound, rfl⟩
    · constructor
      · intro haborted
        cases haborted
      · intro hok
        have hpc := hok (by rw [pushTarget, htarget]; rfl)
        rw [(h.tryPushMessageTo_iff htarget).mpr hpc] at hfound
        cases hfound
    · refine ⟨fun _ htarget => ?_, fun _ => hP⟩
      obtain ⟨name, htarget⟩ := Option.isSome_iff_exists.mp htarget
      exact (h.tryPushMessageTo_iff htarget).mp (hfound name htarget)

/-- A step that is not possible does not push. -/
theorem pushesAfterCreate_of_none (hP : w.aborted = false) (hstep : step sizes w a = none) :
    w.PushesAfterCreate a := by
  intro htarget
  obtain ⟨name, htarget⟩ := Option.isSome_iff_exists.mp htarget
  unfold step at hstep
  rw [hP] at hstep
  cases a with
  | construct => cases htarget
  | serve b =>
    obtain ⟨network, hnetwork⟩ := step_pushing htarget
    have henabled : w.enabled b = true := by
      cases b with
      | start t handler => cases htarget
      | run t answers => rfl
    replace htarget : w.network.pushTarget b = some name := htarget
    simp only [serve, henabled, htarget, hnetwork, Option.map_some, Bool.false_eq_true, if_true,
      if_false] at hstep
    split at hstep
    · cases hstep
    · cases hstep

/-- **The missing actor.** In a run in which associated actors are only changed to registered ones,
`TryPushMessageTo` never returns false inside a `CRASH_COND` of `NetworkServer` exactly if no message
and no notice is pushed before `Create<A_Auth>`. -/
theorem aborted_always_iff (sizes : Sizes) (as : List Action)
    (hnames : Meets (step sizes) ChangesToRegistered initial as) :
    Always (step sizes) (fun w => w.aborted = false) initial as ↔
      Meets (step sizes) PushesAfterCreate initial as :=
  always_iff_meets_of (I := Named) (fun _ _ _ h _ hnames hstep _ => named_step h hnames hstep)
    (fun _ _ _ h hP _ hstep => aborted_step_iff h hP hstep)
    (fun _ _ _ hP hstep => pushesAfterCreate_of_none hP hstep) named_initial rfl hnames

/-- A client that connects and sends a message as soon as the first `AcceptEx` has been posted. -/
def earlyMessage : List Action :=
  List.replicate 6 .construct ++
    [.serve (.start 0 .accept), .serve (.run 0 {}), .serve (.run 0 {}), .serve (.run 0 {}),
      .serve (.run 0 {}), .serve (.start 0 (.completion .receive 0 true 4)), .serve (.run 0 {}),
      .serve (.run 0 {}), .serve (.run 0 {}), .serve (.run 0 {}), .serve (.run 0 {}),
      .serve (.run 0 { message := some (1, []) })]

/-- The constructor, and after it a client that connects and sends a message. -/
def lateMessage : List Action :=
  List.replicate 6 .construct ++ List.replicate 6 .construct ++ earlyMessage.drop 6

theorem aborted_always_iff_lateMessage :
    Always (step ⟨1, 1, 1⟩) (fun w => w.aborted = false) initial lateMessage ↔
      Meets (step ⟨1, 1, 1⟩) PushesAfterCreate initial lateMessage :=
  aborted_always_iff ⟨1, 1, 1⟩ lateMessage (by decide)

/-- A message that comes before `Create<A_Auth>` aborts the server. -/
theorem aborted_of_earlyMessage : Meets (step ⟨1, 1, 1⟩) ChangesToRegistered initial earlyMessage ∧
    ∃ w, run (step ⟨1, 1, 1⟩) initial earlyMessage = some w ∧ w.aborted = true :=
  ⟨by decide, _, rfl, rfl⟩

end RatkiniaServer.Startup
