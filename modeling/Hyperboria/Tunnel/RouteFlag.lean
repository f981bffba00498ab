/-
`tunnel/RouteGen.c`: the calls that change the lists, and `RouteGen_commit`. `addSomething` sets
`hasUncommittedChanges`, `removeSomething` does not, so the flag tells whether the routes have changed
since the last commit as long as nothing is removed while it is clear (`Honest`).
-/
import Hyperboria.Transition
import Hyperboria.Tunnel.RouteGen

namespace Hyperboria.RouteGen

/-- The lists of an address family. -/
inductive Kind where
  | prefixes
  | localPrefixes
  | exceptions

def Config.list {α : Type} (config : Config α) : Kind → List α
  | .prefixes => config.prefixes
  | .localPrefixes => config.localPrefixes
  | .exceptions => config.exceptions

/-- The lists after a change to one of them. -/
def Config.edit {α : Type} (config : Config α) (change : List α → List α) : Kind → Config α
  | .prefixes => { config with prefixes := change config.prefixes }
  | .localPrefixes => { config with localPrefixes := change config.localPrefixes }
  | .exceptions => { config with exceptions := change config.exceptions }

/-- The generator, with the routes that the last commit set. -/
structure Generator where
  rp : RouteGen
  hasUncommittedChanges : Bool
  installed : Option Prefix46

/-- A `Sockaddr` with a prefix, of one of the two families. -/
abbrev Destination := Prefix4 ⊕ Prefix6

namespace Generator

def addSomething (kind : Kind) (g : Generator) : Destination → Generator
  | .inl p4 => { g with rp.config4 := g.rp.config4.edit (· ++ [p4]) kind, hasUncommittedChanges := true }
  | .inr p6 => { g with rp.config6 := g.rp.config6.edit (· ++ [p6]) kind, hasUncommittedChanges := true }

/-- `RouteGen_addException`. -/
def addException : Generator → Destination → Generator := addSomething .exceptions

/-- `RouteGen_addPrefix`. -/
def addPrefix : Generator → Destination → Generator := addSomething .prefixes

/-- `RouteGen_addLocalPrefix`. -/
def addLocalPrefix : Generator → Destination → Generator := addSomething .localPrefixes

/-- `removeSomething`: whether there was something to remove. -/
def removeSomething (kind : Kind) (g : Generator) : Destination → Bool × Generator
  | .inl p4 => ((g.rp.config4.list kind).any (comparePrefixes4 p4 · = 0),
      { g with rp.config4 := g.rp.config4.edit (·.filter (comparePrefixes4 p4 · ≠ 0)) kind })
  | .inr p6 => ((g.rp.config6.list kind).any (comparePrefixes6 p6 · = 0),
      { g with rp.config6 := g.rp.config6.edit (·.filter (comparePrefixes6 p6 · ≠ 0)) kind })

/-- `RouteGen_removePrefix`. -/
def removePrefix : Generator → Destination → Bool × Generator := removeSomething .prefixes

/-- `RouteGen_removeLocalPrefix`. -/
def removeLocalPrefix : Generator → Destination → Bool × Generator := removeSomething .localPrefixes

/-- `RouteGen_removeException`. -/
def removeException : Generator → Destination → Bool × Generator := removeSomething .exceptions

/-- `RouteGen_commit`. -/
def commit (g : Generator) : Er Generator := do
  let p46 ← g.rp.getGeneratedRoutes
  .ret { g with hasUncommittedChanges := false, installed := some p46 }

/-- What `setupDefaultLocalPrefixes` adds. -/
def defaultLocalPrefixes : List Destination :=
  [.inr ⟨0xfe80000000000000, 0, 10, by decide⟩, .inr ⟨0xfd00000000000000, 0, 8, by decide⟩,
    .inl ⟨0x0a000000, 8, by decide⟩, .inl ⟨0xac100000, 12, by decide⟩, .inl ⟨0xc0a80000, 16, by decide⟩,
    .inl ⟨0x7f000000, 8, by decide⟩]

/-- `RouteGen_new`. -/
def new : Generator := defaultLocalPrefixes.foldl addLocalPrefix ⟨⟨⟨[], [], []⟩, ⟨[], [], []⟩⟩, false, none⟩

/-- The calls. -/
inductive Call where
  | addException (destination : Destination)
  | addPrefix (destination : Destination)
  | addLocalPrefix (destination : Destination)
  | removePrefix (toRemove : Destination)
  | removeLocalPrefix (toRemove : Destination)
  | removeException (toRemove : Destination)
  | commit

def step (g : Generator) : Call → Er Generator
  | .addException d => .ret (g.addException d)
  | .addPrefix d => .ret (g.addPrefix d)
  | .addLocalPrefix d => .ret (g.addLocalPrefix d)
  | .removePrefix d => .ret (g.removePrefix d).2
  | .removeLocalPrefix d => .ret (g.removeLocalPrefix d).2
  | .removeException d => .ret (g.removeException d).2
  | .commit => g.commit

def system : Transition.System Generator Call := ⟨(· = new), fun g call g' => g.step call = .ret g'⟩

/-- The flag is set if the routes are not those that the last commit set. -/
def Honest (g : Generator) : Prop :=
  ∀ routes, g.rp.getGeneratedRoutes = .ret routes → g.installed ≠ some routes → g.hasUncommittedChanges = true

/-- There is nothing to remove in the list. -/
def Lacks (kind : Kind) (g : Generator) : Destination → Prop
  | .inl p4 => ∀ q ∈ g.rp.config4.list kind, comparePrefixes4 p4 q ≠ 0
  | .inr p6 => ∀ q ∈ g.rp.config6.list kind, comparePrefixes6 p6 q ≠ 0

/-- What is removed is removed while the flag is set. -/
def Safe (g : Generator) : Call → Prop
  | .removePrefix d => g.hasUncommittedChanges = true ∨ g.Lacks .prefixes d
  | .removeLocalPrefix d => g.hasUncommittedChanges = true ∨ g.Lacks .localPrefixes d
  | .removeException d => g.hasUncommittedChanges = true ∨ g.Lacks .exceptions d
  | _ => True

theorem edit_eq_self {α} {config : Config α} {change} {kind}
    (h : change (config.list kind) = config.list kind) : config.edit change kind = config := by
  cases kind with
  | prefixes => exact congrArg (Config.mk · config.localPrefixes config.exceptions) h
  | localPrefixes => exact congrArg (Config.mk config.prefixes · config.exceptions) h
  | exceptions => exact congrArg (Config.mk config.prefixes config.localPrefixes) h

variable {g : Generator}

theorem honest_addSomething (kind : Kind) (d : Destination) : (g.addSomething kind d).Honest := by
  cases d with
  | inl p4 => exact fun _ _ _ => rfl
  | inr p6 => exact fun _ _ _ => rfl

theorem removeSomething_eq_self {kind} {d} (h : g.Lacks kind d) :
    (g.removeSomething kind d).2 = g := by
  cases d with
  | inl p4 =>
    have hedit := @edit_eq_self _ g.rp.config4 (·.filter (comparePrefixes4 p4 · ≠ 0)) kind
      (List.filter_eq_self.mpr (by simpa [Lacks] using h))
    simp only [removeSomething, hedit]
  | inr p6 =>
    have hedit := @edit_eq_self _ g.rp.config6 (·.filter (comparePrefixes6 p6 · ≠ 0)) kind
      (List.filter_eq_self.mpr (by simpa [Lacks] using h))
    simp only [removeSomething, hedit]

theorem Honest.removeSomething {kind} {d} (hg : g.Honest)
    (h : g.hasUncommittedChanges = true ∨ g.Lacks kind d) : (g.removeSomething kind d).2.Honest := by
  rcases h with h | h
  · cases d with
    | inl p4 => exact fun _ _ _ => h
    | inr p6 => exact fun _ _ _ => h
  · rwa [removeSomething_eq_self h]

theorem honest_commit {g'} (h : g.commit = .ret g') : g'.Honest := by
  obtain ⟨p46, hroutes, h⟩ := Er.bind_inv h
  cases h
  intro routes hroutes' hne
  exact absurd (congrArg some (Er.ret.inj (hroutes.symm.trans hroutes'))) hne

theorem Honest.step {call} {g'} (hg : g.Honest) (hsafe : g.Safe call)
    (h : g.step call = .ret g') : g'.Honest := by
  cases call with
  | addException d | addPrefix d | addLocalPrefix d => exact Er.ret.inj h ▸ honest_addSomething _ d
  | removePrefix d | removeLocalPrefix d | removeException d => exact Er.ret.inj h ▸ hg.removeSomething hsafe
  | commit => exact honest_commit h

/-- In every run in which nothing is removed while the flag is clear the flag is right. -/
theorem honest_of_safe {past : List Generator} (h : Transition.Run (system.restrict Safe) g past) : g.Honest := by
  induction h with
  | start h => exact fun _ _ _ => h ▸ rfl
  | step _ hstep ih => exact ih.step hstep.1 hstep.2

/-- 11.0.0.0/8. -/
def eleven : Destination := .inl ⟨0x0b000000, 8, by decide⟩

/-- 11.0.0.0/8 is added and committed. -/
def settled : Generator := { new.addPrefix eleven with
  hasUncommittedChanges := false, installed := some ⟨[⟨0x0b000000, 8, by decide⟩], []⟩ }

theorem settled_run : Transition.Run (system.restrict Safe) settled [new.addPrefix eleven, new] := by
  have hadd : (system.restrict Safe).step new (.addPrefix eleven) (new.addPrefix eleven) := ⟨trivial, rfl⟩
  have hcommit : (system.restrict Safe).step (new.addPrefix eleven) .commit settled := ⟨trivial, rfl⟩
  exact .step (.step (.start rfl) hadd) hcommit

theorem honest_settled : settled.hasUncommittedChanges = false ∧ settled.Honest := ⟨rfl, honest_of_safe settled_run⟩

/-- The prefix is removed again. -/
theorem removed_unnoticed : ∃ g past, Transition.Run system g past ∧ ¬ g.Honest := by
  have hremove : system.step settled (.removePrefix eleven) (settled.removePrefix eleven).2 := rfl
  refine ⟨_, _, .step settled_run.of_restrict hremove, fun h => ?_⟩
  exact absurd (h ⟨[], []⟩ rfl (by decide)) (by decide)

end Generator

end Hyperboria.RouteGen
