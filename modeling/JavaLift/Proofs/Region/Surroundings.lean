import JavaLift.Proofs.Region.Totality

namespace JavaLift

namespace Frame

def header? : Frame → Option Nat
  | .loop header .. => some header
  | .switch _ => none

def Distinct (frames : List Frame) : Prop := (frames.filterMap header?).Nodup

instance (frames : List Frame) : Decidable (Distinct frames) := inferInstanceAs (Decidable (List.Nodup _))

variable {frames : List Frame}

theorem Distinct.switch (h : Distinct frames) (exit : Option Nat) : Distinct (.switch exit :: frames) := h

theorem Distinct.loop (h : Distinct frames) {header : Nat} (hjump : jump? header [] frames = none)
    (exit : Option Nat) (body : List Nat) (latch : Option Nat) : Distinct (.loop header exit body latch :: frames) := by
  refine List.nodup_cons.mpr ⟨fun hmem => ?_, h⟩
  obtain ⟨f, hf, hheader⟩ := List.mem_filterMap.mp hmem
  cases f with
  | switch _ => cases hheader
  | loop header' exit body latch =>
      obtain rfl : header' = header := Option.some.inj hheader
      exact jump?_ne_none hf (.inl rfl) hjump

end Frame

open JavaLift.Frame

namespace Region

/-- A step of a walk in the one scope goes on with walks in the other: it keeps the constructs around, opens another one,
or leaves all of them. -/
inductive GoesOn (s : Scope) : Scope → Prop
  | leaving : GoesOn s .outermost
  | staying (follow : Option Nat) (allowed : Option (List Nat)) : GoesOn s ⟨follow, s.frames, allowed⟩
  | opening (follow exit : Option Nat) : GoesOn s ⟨follow, .switch exit :: s.frames, s.allowed⟩
  | looping {header : Nat} (caught : jump? header [] s.frames = none) (exit : Option Nat) (body : List Nat)
      (latch : Option Nat) : GoesOn s ⟨none, .loop header exit body latch :: s.frames, s.allowed⟩

inductive Met : Scope → Prop
  | outermost : Met .outermost
  | step {s s' : Scope} (met : Met s) (next : GoesOn s s') : Met s'

theorem GoesOn.distinct {s s' : Scope} (h : GoesOn s s') (hs : Distinct s.frames) : Distinct s'.frames := by
  cases h with
  | leaving => exact List.nodup_nil
  | staying => exact hs
  | opening _ exit => exact hs.switch exit
  | looping hcaught exit body latch => exact hs.loop hcaught exit body latch

theorem Met.distinct {s : Scope} (h : Met s) : Distinct s.frames := by
  induction h with
  | outermost => exact List.nodup_nil
  | step _ hnext ih => exact hnext.distinct ih

variable {g : Graph} {d : Dominance} {walk walk' : Walk} {s : Scope}

theorem caseBodies_congr (h : ∀ follow, walk { s with follow } = walk' { s with follow }) (merge : Option Nat)
    (entries : List Nat) : caseBodies g walk s merge entries = caseBodies g walk' s merge entries := by
  induction entries with
  | nil => rfl
  | cons target rest ih => simp only [caseBodies, caseBody, ih, h]

theorem catchesOf_congr (h : walk s = walk' s) (seen : List Nat) (handlers : List HandlerBlock) :
    catchesOf g walk s seen handlers = catchesOf g walk' s seen handlers := by
  induction handlers generalizing seen with
  | nil => rfl
  | cons handler rest ih => simp only [catchesOf, handlerBody, ih, h]

section

variable (h : ∀ s', GoesOn s s' → walk s' = walk' s')
include h

theorem leave_congr (fromTry : Bool) (b : Nat) : leave g d walk fromTry b = leave g d walk' fromTry b := by
  simp only [leave, h _ .leaving]

theorem branchAt_congr (b : Nat) : branchAt g d walk s b = branchAt g d walk' s b := by
  have hinner (follow : Option Nat) := h _ (.staying follow s.allowed)
  simp only [branchAt, arms, hinner]

theorem switchAt_congr (b : Nat) (keys : List Int) (targets : List Nat) :
    switchAt g d walk s b keys targets = switchAt g d walk' s b keys targets := by
  have hcases (exit : Option Nat) := caseBodies_congr (g := g) (s := { s with frames := .switch exit :: s.frames })
    fun follow => h _ (.opening follow exit)
  simp only [switchAt, hcases]

theorem tryRegionAt_congr (asBody : Bool) (n : Nat) (t : TryRegion) :
    tryRegionAt g walk s asBody n t = tryRegionAt g walk' s asBody n t := by
  have hinner (follow : Option Nat) (allowed : Option (List Nat)) := h _ (.staying follow allowed)
  have hcatches (follow : Option Nat) := catchesOf_congr (g := g) (hinner follow s.allowed)
  simp only [tryRegionAt, hinner, hcatches]

theorem loopRegionAt_congr {l : Loop} (hcaught : jump? l.header [] s.frames = none) :
    loopRegionAt g d walk s l = loopRegionAt g d walk' s l := by
  have hinner (exit latch : Option Nat) := h _ (.looping hcaught exit l.body latch)
  simp only [loopRegionAt, loopItems, hinner]

theorem tryOrPlainAt_congr (asBody : Bool) (b : Nat) :
    tryOrPlainAt g d walk s asBody b = tryOrPlainAt g d walk' s asBody b := by
  simp only [tryOrPlainAt, tryRegionAt_congr h, plainAt, branchAt_congr h, switchAt_congr h]

theorem regionAt_congr (b : Nat) : regionAt g d walk s b = regionAt g d walk' s b := by
  unfold regionAt
  cases hcaught : jump? b [] s.frames with
  | some jump => rfl
  | none =>
      cases hloop : d.loopAt? b with
      | some l =>
          obtain rfl : l.header = b := by simpa using List.find?_some hloop
          simp only [leave_congr h, loopAt, tryRegionAt_congr h, loopRegionAt_congr h hcaught]
      | none => simp only [leave_congr h, tryOrPlainAt_congr h]

/-- A step goes on with walks only in the scopes that it may go on in. -/
theorem advance_congr : advance g d walk s = advance g d walk' s := by
  have hhere := h _ (.staying s.follow s.allowed)
  funext asBody b
  simp only [advance, goOn, hhere, tryOrPlainAt_congr h, regionAt_congr h]

end

/-- The walk where the loops around have distinct headers, and another one elsewhere. -/
def inside (walk elsewhere : Walk) : Walk := fun s => if Distinct s.frames then walk s else elsewhere s

theorem iterate_inside (elsewhere walk : Walk) (depth : Nat) (hs : Distinct s.frames) :
    (advance g d)^[depth] walk s = (fun walk => inside (advance g d walk) elsewhere)^[depth] walk s := by
  induction depth generalizing s with
  | zero => rfl
  | succ depth ih =>
      rw [Function.iterate_succ_apply', Function.iterate_succ_apply', inside, if_pos hs]
      exact advance_congr fun s' hnext => ih (hnext.distinct hs)

/-- A walk from the outermost region stays where the loops around have distinct headers. -/
theorem whole_inside (elsewhere : Walk) (b : Nat) :
    whole g d b = (fun walk => inside (advance g d walk) elsewhere)^[depthBound g] (fun _ _ _ => return [])
      .outermost false b := by
  rw [whole, follow_eq_iterate, iterate_inside elsewhere _ _ Met.outermost.distinct]

end Region

end JavaLift
