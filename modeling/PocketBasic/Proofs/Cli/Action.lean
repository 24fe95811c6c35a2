import PocketBasic.Cli.Commands

/-! What the steps of a command write. A step is quiet if it writes nothing, and silent if it has
written nothing in case it gives up (`Action.Quiet`, `Action.Silent`). A quiet step may come before a
silent one (`Action.Quiet.bind_silent`), but not the other way round, unless nothing can go wrong any
more (`Action.Sure`). -/

namespace PocketBasic.Cli

/-- Standard output takes all that is written to it. -/
def Host.TakesAll (host : Host) : Prop :=
  ∀ before text, host.sink before text = none

namespace Action

variable {α β ε : Type} {host : Host} {action : Action α} {next : α → Action β}

/-! ### Runs of a step -/

theorem perform_log (notice : Notice) (record : Record) :
    (log notice).perform record = (.ok (), { record with log := record.log ++ [notice] }) := rfl

theorem perform_bind (action : Action α) (next : α → Action β) (record : Record) :
    (action >>= next).perform record =
      match action.perform record with
      | (.ok a, after) => (next a).perform after
      | (.error fault, after) => (.error fault, after) := by
  have hrun : (action >>= next).perform record =
      ExceptT.bindCont next (action.perform record).1 (action.perform record).2 := rfl
  rw [hrun]
  rcases action.perform record with ⟨_ | a, after⟩ <;> rfl

theorem perform_bind_of_ok {a : α} {record after : Record}
    (h : action.perform record = (.ok a, after)) (next : α → Action β) :
    (action >>= next).perform record = (next a).perform after := by
  rw [perform_bind, h]

/-- Two steps come to their end only if both do. -/
theorem exists_of_perform_bind {b : β} {record after : Record}
    (h : (action >>= next).perform record = (.ok b, after)) :
    ∃ a between, action.perform record = (.ok a, between) ∧
      (next a).perform between = (.ok b, after) := by
  rw [perform_bind] at h
  rcases haction : action.perform record with ⟨_ | a, between⟩
  · rw [haction] at h
    cases h
  · rw [haction] at h
    exact ⟨a, between, rfl, h⟩

theorem perform_offer (hsink : host.TakesAll) (text : List Char) (record : Record) :
    (liftM (offer host text) : Action (Option String)).perform record =
      (.ok none, { record with output := record.output ++ text }) := by
  have hoffer : offer host text record =
      (none, { record with output := record.output ++ text }) := by
    rw [offer, hsink]
  have hlift : (liftM (offer host text) : Action (Option String)).perform record =
      (.ok (offer host text record).1, (offer host text record).2) := rfl
  rw [hlift, hoffer]

theorem perform_write (hsink : host.TakesAll) (text : List Char) (record : Record) :
    (write host text).perform record =
      (.ok (), { record with output := record.output ++ text }) :=
  perform_bind_of_ok (perform_offer hsink text record) _

theorem perform_print (hsink : host.TakesAll) (text : List Char) (record : Record) :
    (print host text).perform record =
      (.ok (), { record with output := record.output ++ text }) :=
  perform_bind_of_ok (perform_offer hsink text record) _

theorem perform_forM_log {ι : Type} (notice : ι → Notice) (items : List ι) (record : Record) :
    (items.forM fun item => log (notice item)).perform record =
      (.ok (), { record with log := record.log ++ items.map notice }) := by
  induction items generalizing record with
  | nil =>
    rw [List.map_nil, List.append_nil]
    rfl
  | cons item items ih =>
    have hfirst := perform_bind_of_ok (perform_log (notice item) record) fun _ =>
      items.forM fun item => log (notice item)
    rw [List.map_cons, List.append_cons]
    exact hfirst.trans (ih _)

/-! ### Steps that write nothing -/

/-- The step writes nothing, whether it comes to its end or not. -/
def Quiet (action : Action α) : Prop :=
  ∀ record, (action.perform record).2.output = record.output

/-- The step comes to its end. -/
def Sure (action : Action α) : Prop :=
  ∀ record, ∃ a after, action.perform record = (.ok a, after)

/-- If the step gives up, it has written nothing. -/
def Silent (action : Action α) : Prop :=
  ∀ record fault after, action.perform record = (.error fault, after) →
    after.output = record.output

namespace Quiet

theorem pure (a : α) : Quiet (pure a) := fun _ => rfl

theorem log (notice : Notice) : Quiet (log notice) := fun _ => rfl

theorem fail (cause : Notice) : Quiet (fail cause : Action α) := fun _ => rfl

theorem ofExcept (cause : ε → Notice) (result : Except ε α) : Quiet (ofExcept cause result) := by
  cases result with
  | ok a => exact .pure a
  | error e => exact .fail (cause e)

theorem bind (h : Quiet action) (hnext : ∀ a, Quiet (next a)) : Quiet (action >>= next) := by
  intro record
  have hfirst := h record
  rw [perform_bind]
  rcases haction : action.perform record with ⟨_ | a, between⟩
  · rwa [haction] at hfirst
  · rw [haction] at hfirst
    exact (hnext a between).trans hfirst

theorem map (h : Quiet action) (f : α → β) : Quiet (f <$> action) := by
  rw [map_eq_pure_bind]
  exact h.bind fun a => .pure (f a)

theorem forM {ι : Type} {f : ι → Action PUnit} (h : ∀ item, Quiet (f item)) (items : List ι) :
    Quiet (items.forM f) := by
  induction items with
  | nil => exact .pure _
  | cons item items ih => exact (h item).bind fun _ => ih

theorem silent (h : Quiet action) : Silent action := by
  intro record fault after hfault
  have := h record
  rwa [hfault] at this

/-- A step that writes nothing may come before one that may have written. -/
theorem bind_silent (h : Quiet action) (hnext : ∀ a, Silent (next a)) :
    Silent (action >>= next) := by
  intro record fault after hfault
  have hfirst := h record
  rw [perform_bind] at hfault
  rcases haction : action.perform record with ⟨_ | a, between⟩
  · rw [haction] at hfault hfirst
    cases hfault
    exact hfirst
  · rw [haction] at hfault hfirst
    exact (hnext a between fault after hfault).trans hfirst

end Quiet

namespace Sure

theorem silent (h : Sure action) : Silent action := by
  intro record fault after hfault
  obtain ⟨a, after', hend⟩ := h record
  rw [hend] at hfault
  cases hfault

theorem write (hsink : host.TakesAll) (text : List Char) : Sure (write host text) :=
  fun record => ⟨(), _, perform_write hsink text record⟩

theorem print (hsink : host.TakesAll) (text : List Char) : Sure (print host text) :=
  fun record => ⟨(), _, perform_print hsink text record⟩

theorem forM {ι : Type} {f : ι → Action PUnit} (h : ∀ item, Sure (f item)) (items : List ι) :
    Sure (items.forM f) := by
  induction items with
  | nil => exact fun record => ⟨_, record, rfl⟩
  | cons item items ih =>
    intro record
    obtain ⟨a, between, hfirst⟩ := h item record
    obtain ⟨b, after, hrest⟩ := ih between
    exact ⟨b, after, (perform_bind_of_ok hfirst _).trans hrest⟩

end Sure

end Action

end PocketBasic.Cli
