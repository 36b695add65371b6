import AddonIndex.Indexing.Stages
import AddonIndex.Proofs.Activity.Trace
import AddonIndex.Proofs.Event.Delivery

/-!
# The steps of the work on an addon

While a run is under way addons may be cancelled at any moment, and queued events
are delivered. No step of the work on an addon takes a cancellation back, and
each reports at most something about that addon. These facts are proved once, of
every step that can be taken; what holds of whole executions follows from them.
-/

namespace AddonIndex

/-- Whether an event is reported in the course of the work on an addon. -/
def Event.IsDetailOf (addon : Handle) : Event → Prop
  | message other _ => other = addon
  | warning other _ _ => other = addon
  | error other _ _ => other = some addon
  | totalProgress other _ => other = addon
  | currentProgress other _ => other = addon
  | _ => False

namespace Indexing

open Activity

/-- What may happen between the steps of a run: an addon is cancelled, or the next event
is delivered. -/
inductive Interference : World → World → Prop
  | cancel (world : World) (addon : Handle) :
      Interference world (world.updateProgress addon Progress.cancel)
  | deliver (world : World) :
      Interference world { world with channel := world.channel.deliverNext }

/-- Whether a world can follow another one in a run that reports only events of a kind:
whoever was cancelled stays so, and the events are added to what was reported. -/
structure Proceeds (allowed : Event → Prop) (before after : World) : Prop where
  cancelled : ∀ addon, (before.progressOf addon).cancelled = true →
    (after.progressOf addon).cancelled = true
  live : before.channel.Live → after.channel.Live
  reports : before.channel.Live → ∃ events,
    after.channel.reported = before.channel.reported ++ events ∧ ∀ event ∈ events, allowed event

variable {allowed : Event → Prop} {world : World} {addon : Handle}

/-! ## Progress -/

theorem progressOf_updateProgress (world : World) (addon other : Handle)
    (change : Progress → Progress) :
    (world.updateProgress addon change).progressOf other =
      if addon.index = other.index ∧ addon.index < world.progress.length then
        change (world.progressOf other)
      else world.progressOf other := by
  unfold World.updateProgress World.progressOf
  rw [List.getElem?_modify]
  by_cases same : addon.index = other.index
  · by_cases inside : addon.index < world.progress.length
    · rw [same] at inside
      simp [same, inside]
    · rw [same] at inside
      simp [same, inside]
  · simp [same]

/-- No change of progress that keeps the cancellation of a progress takes one back. -/
theorem cancelled_updateProgress {change : Progress → Progress}
    (keeps : ∀ progress, progress.cancelled = true → (change progress).cancelled = true)
    (other : Handle) (cancelled : (world.progressOf other).cancelled = true) :
    ((world.updateProgress addon change).progressOf other).cancelled = true := by
  rw [progressOf_updateProgress]
  split
  · exact keeps _ cancelled
  · exact cancelled

/-- What holds whenever one more addon is cancelled holds when several are. -/
theorem holds_cancelNamed {holds : World → Prop} (names : List Text) (begins : holds world)
    (cancels : ∀ (world : World) (addon : Handle), holds world →
      holds (world.updateProgress addon Progress.cancel)) : holds (world.cancelNamed names) := by
  unfold World.cancelNamed
  generalize world.handles.filter (fun addon => names.contains addon.name) = handles
  induction handles generalizing world with
  | nil => exact begins
  | cons addon rest ih => exact ih (cancels world addon begins)

/-- Addons that are cancelled by name might have been cancelled from outside, one after another. -/
theorem gap_cancelNamed (world : World) (names : List Text) :
    Relation.ReflTransGen Interference world (world.cancelNamed names) :=
  holds_cancelNamed names .refl fun after addon gap => gap.tail (.cancel after addon)

theorem channel_cancelNamed (world : World) (names : List Text) :
    (world.cancelNamed names).channel = world.channel :=
  @holds_cancelNamed world (fun after => after.channel = world.channel) names rfl fun _ _ same => same

theorem cancelled_cancelNamed (names : List Text) (other : Handle)
    (cancelled : (world.progressOf other).cancelled = true) :
    ((world.cancelNamed names).progressOf other).cancelled = true := by
  refine @holds_cancelNamed world (fun after => (after.progressOf other).cancelled = true) names cancelled ?_
  exact fun _ _ => cancelled_updateProgress (fun _ _ => rfl) other

/-! ## Proceeding -/

namespace Proceeds

theorem refl (world : World) : Proceeds allowed world world where
  cancelled _ cancelled := cancelled
  live live := live
  reports _ := ⟨[], (List.append_nil _).symm, nofun⟩

theorem trans {first second third : World} (before : Proceeds allowed first second)
    (after : Proceeds allowed second third) : Proceeds allowed first third where
  cancelled addon cancelled := after.cancelled addon (before.cancelled addon cancelled)
  live live := after.live (before.live live)
  reports live := by
    obtain ⟨events, reported, kinds⟩ := before.reports live
    obtain ⟨more, reportedMore, moreKinds⟩ := after.reports (before.live live)
    refine ⟨events ++ more, by rw [reportedMore, reported, List.append_assoc], fun event member => ?_⟩
    rcases List.mem_append.1 member with inFirst | inSecond
    · exact kinds event inFirst
    · exact moreKinds event inSecond

/-- What leaves the channel and the cancellations as they are proceeds quietly. -/
theorem of_quiet {before after : World} (channel : after.channel = before.channel)
    (cancelled : ∀ addon, (before.progressOf addon).cancelled = true →
      (after.progressOf addon).cancelled = true) : Proceeds allowed before after where
  cancelled := cancelled
  live live := channel ▸ live
  reports _ := ⟨[], by rw [channel, List.append_nil], nofun⟩

theorem of_interference {before after : World} (interferes : Interference before after) :
    Proceeds allowed before after := by
  cases interferes with
  | cancel addon => exact of_quiet rfl (cancelled_updateProgress fun _ _ => rfl)
  | deliver =>
      exact
        { cancelled := fun _ cancelled => cancelled
          live := fun live => live.deliverNext
          reports := fun _ => ⟨[], by simp, nofun⟩ }

theorem mono {other : Event → Prop} {before after : World} (proceeds : Proceeds allowed before after)
    (weaker : ∀ event, allowed event → other event) : Proceeds other before after where
  cancelled := proceeds.cancelled
  live := proceeds.live
  reports live := by
    obtain ⟨events, reported, kinds⟩ := proceeds.reports live
    exact ⟨events, reported, fun event member => weaker event (kinds event member)⟩

end Proceeds

/-! ## Single steps -/

theorem always_submit {event : Event} (isAllowed : allowed event) :
    Always (Proceeds allowed) (submit event) :=
  always_modify fun world =>
    { cancelled := fun _ cancelled => cancelled
      live := fun live => live.submit event
      reports := fun live => ⟨[event], EventChannel.reported_submit live event, by simpa using isAllowed⟩ }

/-- A change of the world that does not concern the channel or the progress is quiet. -/
theorem always_modify_quiet {change : World → World}
    (channel : ∀ world, (change world).channel = world.channel)
    (progress : ∀ world, (change world).progress = world.progress) :
    Always (Proceeds allowed) (modify change) :=
  always_modify fun world => .of_quiet (channel world) fun addon cancelled => by
    rw [World.progressOf, progress]
    exact cancelled

theorem always_note (line : Text) : Always (Proceeds allowed) (note line) :=
  always_modify_quiet (fun _ => rfl) fun _ => rfl

theorem always_inspect_world {α : Type} (look : World → α) :
    Always (Proceeds allowed) (inspect look) :=
  always_inspect Proceeds.refl

theorem always_updateProgress {change : Progress → Progress}
    (keeps : ∀ progress, progress.cancelled = true → (change progress).cancelled = true) :
    Always (Proceeds allowed) (modify (·.updateProgress addon change)) :=
  always_modify fun _ => .of_quiet rfl (cancelled_updateProgress keeps)

theorem always_perform {α : Type} (operation : FileOp α) :
    Always (Proceeds allowed) (perform operation) :=
  always_act fun _ => .of_quiet rfl fun _ cancelled => cancelled

theorem always_count (change : Tally → Tally) : Always (Proceeds allowed) (count change) :=
  always_modify_quiet (fun _ => rfl) fun _ => rfl

theorem always_takeReply (reply : ToolReply) : Always (Proceeds allowed) (takeReply reply) := by
  cases reply <;> trivial

/-- A call of a tool proceeds quietly, also if it aborts. -/
theorem always_callTool (call : FileTree → ToolEffect) :
    Always (Proceeds allowed) (callTool call) := by
  refine (always_act fun world => ?_).bind always_takeReply
  exact .of_quiet (channel_cancelNamed _ _) fun other cancelled =>
    cancelled_cancelNamed _ other cancelled

end Indexing

end AddonIndex

/-!
## The work inside the stages

Inside a stage only details about the addon are reported, and every part of a
stage that is not a worker of its own comes to a result, even if workers are
aborted.
-/

namespace AddonIndex.Indexing

open Activity

variable {α β : Type} {addon : Handle}

/-- Whether every step of an activity reports at most a detail about an addon. -/
abbrev Details (addon : Handle) (activity : Run α) : Prop :=
  Always (Proceeds (Event.IsDetailOf addon)) activity

/-- Whether an activity reports only details about an addon and comes to a result. -/
structure Concerns (addon : Handle) (activity : Run α) : Prop where
  details : Details addon activity
  returns : Returns activity

theorem concerns_pure (answer : α) : Concerns addon (pure answer : Run α) :=
  ⟨trivial, trivial⟩

theorem Concerns.bind {first : Run α} {next : α → Run β} (concerns : Concerns addon first)
    (later : ∀ a, Concerns addon (next a)) : Concerns addon (first >>= next) :=
  ⟨concerns.details.bind fun a => (later a).details, concerns.returns.bind fun a => (later a).returns⟩

/-! ### Single steps and reports -/

theorem concerns_inspect (look : World → α) : Concerns addon (inspect look) :=
  ⟨always_inspect_world look, returns_inspect look⟩

theorem concerns_note (line : Text) : Concerns addon (note line) :=
  ⟨always_note line, returns_modify _⟩

theorem concerns_count (change : Tally → Tally) : Concerns addon (count change) :=
  ⟨always_count change, returns_modify _⟩

theorem concerns_perform (operation : FileOp α) : Concerns addon (perform operation) :=
  ⟨always_perform operation, returns_act _⟩

theorem concerns_submit {event : Event} (isDetail : event.IsDetailOf addon) :
    Concerns addon (submit event) :=
  ⟨always_submit isDetail, returns_modify _⟩

theorem concerns_modify_quiet {change : World → World}
    (channel : ∀ world, (change world).channel = world.channel)
    (progress : ∀ world, (change world).progress = world.progress) :
    Concerns addon (modify change) :=
  ⟨always_modify_quiet channel progress, returns_modify _⟩

theorem concerns_updateProgress {change : Progress → Progress}
    (keeps : ∀ progress, progress.cancelled = true → (change progress).cancelled = true) :
    Concerns addon (modify (World.updateProgress · addon change)) :=
  ⟨always_updateProgress keeps, returns_modify _⟩

theorem concerns_message (text : Text) : Concerns addon (message addon text) := by
  refine (concerns_note text).bind fun _ => concerns_submit ?_
  exact rfl

theorem concerns_warning (text : Text) (detail : Option Text) :
    Concerns addon (warning addon text detail) := by
  refine (concerns_modify_quiet ?_ ?_).bind fun _ => concerns_submit ?_
  · exact fun _ => rfl
  · exact fun _ => rfl
  · exact rfl

theorem concerns_error (text : Text) (detail : Option Text) :
    Concerns addon (error (some addon) text detail) := by
  refine (concerns_modify_quiet ?_ ?_).bind fun _ => concerns_submit ?_
  · exact fun _ => rfl
  · exact fun _ => rfl
  · exact rfl

theorem concerns_beginWork (units : Nat) : Concerns addon (beginWork addon units) := by
  refine (concerns_updateProgress ?_).bind fun _ =>
    (concerns_submit ?_).bind fun _ => concerns_submit ?_
  · exact fun _ cancelled => cancelled
  · exact rfl
  · exact rfl

theorem concerns_unitDone : Concerns addon (unitDone addon) := by
  refine Concerns.bind ⟨always_act fun world => .of_quiet rfl ?_, returns_act _⟩ fun current =>
    concerns_submit ?_
  · exact cancelled_updateProgress fun _ cancelled => cancelled
  · exact rfl

namespace AddonWork

variable {work : AddonWork}

/-! ### Workers -/

theorem concerns_reportTool (action : Text) (input output : Path) (record : Tally → Bool → Tally)
    (result : Except ToolError ToolOutcome) :
    Concerns work.addon (work.reportTool action input output record result) := by
  have complain : ∀ detail, Concerns work.addon (do
      count (record · false)
      error (some work.addon) ("Couldn't ".toList ++ action ++ [' '] ++ input.text) (some detail)
      return false) :=
    fun detail => (concerns_count _).bind fun _ => (concerns_error _ _).bind fun _ => concerns_pure _
  unfold reportTool
  split
  · exact (concerns_count _).bind fun _ => (concerns_message _).bind fun _ => concerns_pure _
  · exact complain _
  · exact complain _

theorem details_extractEach (destination : Path) (files : List SizedFile) :
    Details work.addon (work.extractEach destination files) := by
  induction files with
  | nil => trivial
  | cons archive rest ih =>
      unfold extractEach
      refine (always_inspect_world _).bind fun cancelled => ?_
      split
      · trivial
      · refine (always_modify_quiet ?_ ?_).bind fun _ => (always_callTool _).bind fun result =>
          (concerns_reportTool _ _ _ _ result).details.bind fun _ =>
            concerns_unitDone.details.bind fun _ => ih
        · exact fun _ => rfl
        · exact fun _ => rfl

theorem details_keepConverted (text : Path) : Details addon (keepConverted text) := by
  refine always_modify_quiet ?_ ?_
  · exact fun _ => rfl
  · exact fun _ => rfl

theorem details_convertEach (files : List SizedFile) :
    Details work.addon (work.convertEach files) := by
  induction files with
  | nil => trivial
  | cons binary rest ih =>
      have next : Details work.addon (do
          unitDone work.addon
          work.convertEach rest) := concerns_unitDone.details.bind fun _ => ih
      unfold convertEach
      refine (always_inspect_world _).bind fun cancelled => ?_
      split
      · trivial
      · refine (always_callTool _).bind fun result =>
          (concerns_reportTool _ _ _ _ result).details.bind fun succeeded => ?_
        cases succeeded with
        | true => exact (details_keepConverted _).bind fun _ => next
        | false => exact next

theorem concerns_reportAborted (workers : List Text) :
    Concerns work.addon (work.reportAborted workers) := by
  induction workers with
  | nil => exact concerns_pure ()
  | cons worker rest ih => exact (concerns_error _ _).bind fun _ => ih

/-- Work that is shared out reports details if each worker does, and it comes to a result
whatever becomes of the workers. -/
theorem concerns_shareOut {what : Text} {files : List Path} {doUnits : List SizedFile → Run Unit}
    (each : ∀ bucket, Details work.addon (doUnits bucket)) :
    Concerns work.addon (work.shareOut what files doUnits) := by
  refine (concerns_inspect _).bind fun sized => Concerns.bind ?_ fun report => ?_
  · unfold WorkerPool.run
    refine Concerns.bind ⟨always_together fun thread member => ?_, returns_together _⟩ fun ended => ?_
    · obtain ⟨⟨worker, bucket⟩, -, rfl⟩ := List.mem_map.1 member
      exact (always_note _).bind fun _ => each bucket
    · split
      · exact concerns_pure _
      · exact concerns_pure _
  · split
    · exact concerns_pure _
    · exact (concerns_reportAborted _).bind fun _ => concerns_pure _

/-! ### The work of each stage -/

theorem concerns_status : Concerns work.addon work.status := by
  refine (concerns_inspect _).bind fun cancelled => ?_
  split
  · exact concerns_pure _
  · exact concerns_pure _

theorem concerns_setReference (entry : Path) : Concerns work.addon (work.setReference entry) := by
  refine concerns_updateProgress ?_
  exact fun _ cancelled => cancelled

theorem concerns_noteTexts (texts : List Path) : Concerns addon (noteTexts texts) := by
  induction texts with
  | nil => exact concerns_pure ()
  | cons text rest ih => exact (concerns_note _).bind fun _ => ih

theorem concerns_findConfigs (directories : List Path) :
    Concerns work.addon (work.findConfigs directories) := by
  induction directories with
  | nil => exact concerns_pure _
  | cons directory rest ih =>
      unfold findConfigs
      refine (concerns_inspect _).bind fun cancelled => ?_
      split
      · exact concerns_pure _
      · refine (concerns_inspect _).bind fun found => ih.bind fun others => ?_
        split
        · exact concerns_pure _
        · exact concerns_pure _

theorem concerns_parseEach (configs : List Path) : Concerns work.addon (work.parseEach configs) := by
  induction configs with
  | nil => exact concerns_pure _
  | cons config rest ih =>
      unfold parseEach
      refine (concerns_inspect _).bind fun cancelled => ?_
      split
      · exact concerns_pure _
      · refine Concerns.bind ⟨always_act fun world => ?_, returns_act _⟩ fun result => ?_
        · exact .of_quiet (channel_cancelNamed _ _) (cancelled_cancelNamed _)
        · split
          · refine (concerns_count _).bind fun _ => (concerns_updateProgress ?_).bind fun _ =>
              (concerns_message _).bind fun _ => concerns_unitDone.bind fun _ => ih
            exact fun _ cancelled => cancelled
          · exact (concerns_count _).bind fun _ => (concerns_error _ _).bind fun _ =>
              concerns_unitDone.bind fun _ => ih

theorem concerns_saveEach (entry : Path) (plan : List (Text × Reference.SourceFile)) :
    Concerns work.addon (work.saveEach entry plan) := by
  induction plan with
  | nil => exact concerns_pure _
  | cons item rest ih =>
      obtain ⟨name, file⟩ := item
      unfold saveEach
      refine (concerns_inspect _).bind fun cancelled => ?_
      split
      · exact concerns_pure _
      · refine (concerns_perform _).bind fun result => ?_
        split
        · exact (concerns_count _).bind fun _ => (concerns_message _).bind fun _ =>
            concerns_unitDone.bind fun _ => ih
        · exact (concerns_count _).bind fun _ => (concerns_error _ _).bind fun _ =>
            concerns_unitDone.bind fun _ => ih

theorem concerns_deleteEach (directories : List Path) :
    Concerns work.addon (work.deleteEach directories) := by
  induction directories with
  | nil => exact concerns_pure _
  | cons directory rest ih =>
      unfold deleteEach
      refine (concerns_perform _).bind fun result => ?_
      split
      · split
        · exact (concerns_note _).bind fun _ => ih
        · exact (concerns_warning _ _).bind fun _ => ih
      · exact (concerns_note _).bind fun _ => ih

end AddonWork

end AddonIndex.Indexing
