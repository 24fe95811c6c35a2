import PocketBasic.Cli.Run
import PocketBasic.Proofs.Cli.Action
import PocketBasic.Proofs.Cli.Arguments

/-! What a run leaves behind. Every command does what may go wrong before it writes, and so a run that
fails has written nothing (`silent_execute`). A run that rewrites a listing succeeds if and only if
its settings are JSON and its input is a text that is not empty, and then it has written what the
rewriting gives under these settings and nothing else (`run_bytes`). -/

namespace PocketBasic.Cli

/-- The command rewrites a listing. -/
inductive Rewrites : String → (Keyword.Table → LineEnding → List Char → List Char) → Prop where
  | reformat : Rewrites "reformat" PocketBasic.reformat
  | compact : Rewrites "compact" PocketBasic.compact

variable {libraries : Libraries} {host : Host} {given : Matches} {command : Command} {input : Input}
  {content : ByteArray} {text : List Char} {chosen : Settings} {warnings : List Settings.Warning}

/-- The settings that a command line chooses: those that its text writes, or else the defaults. -/
inductive Chooses (libraries : Libraries) (host : Host) (given : Matches) :
    Settings → List Settings.Warning → Prop where
  | default (h : given.config? = none) :
      Chooses libraries host given (.defaults host.windows) []
  | given {text : List Char} {root : Json} (h : given.config? = some text)
      (hroot : libraries.readJson text = .ok root) :
      Chooses libraries host given (Settings.ofJson host.windows root).1
        (Settings.ofJson host.windows root).2

open PocketBasic.Cli.Action

/-! ### Failures -/

theorem quiet_loadSettings : Quiet (loadSettings libraries host given) := by
  rw [loadSettings]
  split
  next =>
    refine .bind (.ofExcept _ _) fun (_, warnings) => ?_
    exact .bind (.forM (fun _ => .log _) warnings) fun _ => .pure _
  next => exact .pure _

theorem quiet_readListing : Quiet (readListing command input) := by
  have complaint (notice cause : Notice) :
      Quiet (do log notice; fail cause : Action (List Char)) :=
    .bind (.log notice) fun _ => .fail cause
  cases input with
  | terminal | failing => exact complaint _ _
  | bytes content =>
    rw [readListing]
    split
    next => exact complaint _ _
    next =>
      split
      next => exact complaint _ _
      next => exact .pure _

theorem quiet_showJson {indent : Option Nat} {tokens : List Token} :
    Quiet (showJson libraries indent tokens) := by
  cases indent with
  | none => exact .ofExcept _ _
  | some width =>
    refine .bind (.ofExcept _ _) fun content => ?_
    split
    next => exact .pure _
    next => exact .fail _

theorem quiet_select {α : Type} {ofSelector : String → Except Error α}
    {selector : Option (List Char)} : Quiet (select ofSelector selector) := by
  cases selector with
  | none => exact .pure none
  | some text => exact .map (.ofExcept _ _) some

theorem silent_rewriteListing (hsink : host.TakesAll)
    (rewrite : Keyword.Table → LineEnding → List Char → List Char) :
    Silent (rewriteListing libraries host command rewrite input given) :=
  quiet_loadSettings.bind_silent fun _ => quiet_readListing.bind_silent fun _ =>
    (Sure.write hsink _).silent

theorem silent_showTokens (hsink : host.TakesAll) :
    Silent (showTokens libraries host input given) := by
  refine quiet_loadSettings.bind_silent fun settings => quiet_readListing.bind_silent fun text => ?_
  dsimp only
  split
  next => exact (Sure.forM (fun _ => .print hsink _) _).silent
  next => exact quiet_showJson.bind_silent fun _ => (Sure.print hsink _).silent

theorem silent_showKeywords (hsink : host.TakesAll) :
    Silent (showKeywords libraries host given) :=
  quiet_loadSettings.bind_silent fun _ => quiet_select.bind_silent fun _ =>
    quiet_select.bind_silent fun _ => (Sure.forM (fun _ => .print hsink _) _).silent

theorem silent_showCompletions (hsink : host.TakesAll) :
    Silent (showCompletions libraries host given) := by
  rw [showCompletions]
  split
  next => exact (Quiet.fail _).silent
  next =>
    split
    next => exact (Sure.print hsink _).silent
    next => exact (Quiet.bind (.log _) fun _ => .fail _).silent

theorem Command.silent_action (hsink : host.TakesAll) (command : Command) :
    Silent (command.action libraries host input given) := by
  cases command with
  | reformat | compact => exact silent_rewriteListing hsink _
  | tokenize => exact silent_showTokens hsink
  | keywords => exact silent_showKeywords hsink
  | completions => exact silent_showCompletions hsink

theorem silent_follow (hsink : host.TakesAll) (command : Option (String × Matches)) :
    Silent (follow libraries host input command) := by
  rw [follow]
  split
  next found given _ => exact found.silent_action hsink
  next => exact (Quiet.bind (.log _) fun _ => .fail _).silent

theorem Action.Silent.ofRun {action : Action Unit} (h : Silent action)
    (hexit : (Outcome.ofRun (action.perform {})).exit ≠ 0) :
    (Outcome.ofRun (action.perform {})).output = [] := by
  rcases hend : action.perform {} with ⟨fault | _, after⟩
  · have hnone : after.output = [] := h {} fault after hend
    cases fault with
    | failed | panicked => exact hnone
  · rw [hend] at hexit
    exact absurd rfl hexit

/-- A run that fails has written nothing. -/
theorem silent_execute (hreader : libraries.readArguments.ComplainsApart) (hsink : host.TakesAll)
    (arguments : List ByteArray) (input : Input)
    (h : (execute libraries host arguments input).exit ≠ 0) :
    (execute libraries host arguments input).output = [] := by
  rw [execute] at h ⊢
  split at h
  next status text hread =>
    have hoffer : offer host text {} = (none, { output := [] ++ text }) := by
      rw [offer, hsink]
    change (offer host text {}).2.output = []
    rw [hoffer]
    have hapart := hreader arguments
    rw [hread] at hapart
    exact hapart h
  next command hread => exact (silent_follow hsink command).ofRun h

/-! ### Successes -/

/-- Settings that were read from a text are those that the command line chooses with it. -/
theorem Chooses.of_parseWith (hconfig : given.config? = some text)
    (h : (Settings.parseWith host.windows libraries.readJson text).toOption =
      some (chosen, warnings)) : Chooses libraries host given chosen warnings := by
  rw [Settings.parseWith] at h
  cases hroot : libraries.readJson text with
  | error reason =>
    rw [hroot] at h
    cases h
  | ok root =>
    rw [hroot] at h
    have hjson : Settings.ofJson host.windows root = (chosen, warnings) := Option.some.inj h
    have hchooses : Chooses libraries host given _ _ := .given hconfig hroot
    rwa [hjson] at hchooses

theorem perform_loadSettings (h : Chooses libraries host given chosen warnings) (record : Record) :
    (loadSettings libraries host given).perform record =
      (.ok chosen, { record with log := record.log ++ warnings.map .setting }) := by
  rw [loadSettings]
  cases h with
  | default hnone =>
    rw [hnone, List.map_nil, List.append_nil]
    rfl
  | @given text root hsome hroot =>
    have hparse : Settings.parseWith host.windows libraries.readJson text =
        .ok (Settings.ofJson host.windows root) := by
      rw [Settings.parseWith, hroot]
    simp only [hsome, hparse]
    exact perform_bind_of_ok (perform_forM_log _ _ record) _

/-- There are settings to choose if and only if the text that the command line gives is JSON, should
it give one. -/
theorem exists_chooses_iff (libraries : Libraries) (host : Host) (given : Matches) :
    (∃ chosen warnings, Chooses libraries host given chosen warnings) ↔
      ∀ text, given.config? = some text → ∃ root, libraries.readJson text = .ok root := by
  constructor
  · rintro ⟨chosen, warnings, ⟨hnone⟩ | ⟨hsome, hroot⟩⟩ text htext
    · rw [hnone] at htext
      cases htext
    · rw [hsome] at htext
      cases htext
      exact ⟨_, hroot⟩
  · intro h
    cases hconfig : given.config? with
    | none => exact ⟨_, _, .default hconfig⟩
    | some text =>
      obtain ⟨root, hroot⟩ := h text hconfig
      exact ⟨_, _, .given hconfig hroot⟩

theorem exists_chooses_of_perform {record after : Record}
    (h : (loadSettings libraries host given).perform record = (.ok chosen, after)) :
    ∃ chosen warnings, Chooses libraries host given chosen warnings := by
  rw [exists_chooses_iff]
  intro text htext
  rw [loadSettings, htext] at h
  obtain ⟨read, between, hread, -⟩ := exists_of_perform_bind h
  rw [Settings.parseWith] at hread
  cases hroot : libraries.readJson text with
  | ok root => exact ⟨root, rfl⟩
  | error reason =>
    rw [hroot] at hread
    cases hread

theorem perform_readListing (hne : text ≠ []) (hcontent : content = text.utf8Encode)
    (record : Record) :
    (readListing command (.bytes content)).perform record = (.ok text, record) := by
  have hstring : String.fromUTF8? content = some (String.ofList text) := by
    rw [fromUTF8?_eq_some_iff, String.toList_ofList, hcontent]
  simp only [readListing, hstring, String.toList_ofList, if_neg hne]
  rfl

theorem exists_listing_of_perform {record after : Record}
    (h : (readListing command (.bytes content)).perform record = (.ok text, after)) :
    text ≠ [] ∧ content = text.utf8Encode := by
  rw [readListing] at h
  split at h
  next => cases h
  next string hstring =>
    split at h
    next => cases h
    next hne =>
      cases h
      exact ⟨hne, fromUTF8?_eq_some_iff.mp hstring⟩

variable {rewrite : Keyword.Table → LineEnding → List Char → List Char}

/-- With settings and a listing, there is nothing more that can go wrong. -/
theorem perform_rewriteListing (hsink : host.TakesAll)
    (hchooses : Chooses libraries host given chosen warnings) (hne : text ≠ [])
    (hcontent : content = text.utf8Encode) :
    (rewriteListing libraries host command rewrite (.bytes content) given).perform {} =
      (.ok (), ⟨rewrite chosen.table chosen.ending text, warnings.map .setting⟩) := by
  let record : Record := { log := warnings.map .setting }
  have hsettings : (loadSettings libraries host given).perform {} = (.ok chosen, record) :=
    perform_loadSettings hchooses {}
  have hlisting : (readListing command (.bytes content)).perform record = (.ok text, record) :=
    perform_readListing hne hcontent record
  calc
    _ = (readListing command (.bytes content) >>= fun text =>
          write host (rewrite chosen.table chosen.ending text)).perform record :=
      perform_bind_of_ok hsettings _
    _ = (write host (rewrite chosen.table chosen.ending text)).perform record :=
      perform_bind_of_ok hlisting _
    _ = _ := perform_write hsink _ record

theorem exists_of_perform_rewriteListing {after : Record}
    (h : (rewriteListing libraries host command rewrite (.bytes content) given).perform {} =
      (.ok (), after)) :
    (∃ chosen warnings, Chooses libraries host given chosen warnings) ∧
      ∃ text, text ≠ [] ∧ content = text.utf8Encode := by
  obtain ⟨settings, between, hsettings, hrest⟩ := exists_of_perform_bind h
  obtain ⟨text, between, hlisting, -⟩ := exists_of_perform_bind hrest
  exact ⟨exists_chooses_of_perform hsettings, text, exists_listing_of_perform hlisting⟩

theorem Rewrites.follow_eq {name : String} (rewrites : Rewrites name rewrite)
    (libraries : Libraries) (host : Host) (input : Input) (given : Matches) :
    ∃ command, follow libraries host input (some (name, given)) =
      rewriteListing libraries host command rewrite input given := by
  cases rewrites with
  | reformat => exact ⟨.reformat, rfl⟩
  | compact => exact ⟨.compact, rfl⟩

/-- A run that fails writes nothing. A run that rewrites a listing succeeds if and only if the
settings that its command line gives are JSON, should it give any, and its input is a text that is
not empty. It then writes what the rewriting gives under these settings, whole and alone, and logs
nothing but warnings about the settings. -/
theorem run_bytes (libraries : Libraries) (host : Host) (arguments : List ByteArray)
    (content : ByteArray) (hreader : libraries.readArguments.ComplainsApart)
    (hsink : host.TakesAll) :
    let outcome := execute libraries host arguments (.bytes content)
    (outcome.exit ≠ 0 → outcome.output = []) ∧
    ∀ name given rewrite,
      libraries.readArguments arguments = .matched (some (name, given)) →
      Rewrites name rewrite →
      (outcome.exit = 0 ↔
        (∀ text, given.config? = some text → ∃ root, libraries.readJson text = .ok root) ∧
          ∃ text, text ≠ [] ∧ content = text.utf8Encode) ∧
      ∀ chosen warnings text, Chooses libraries host given chosen warnings → text ≠ [] →
        content = text.utf8Encode →
        outcome = ⟨0, rewrite chosen.table chosen.ending text, warnings.map .setting⟩ := by
  intro outcome
  refine ⟨silent_execute hreader hsink arguments _, fun name given rewrite hread rewrites => ?_⟩
  obtain ⟨command, hfollow⟩ := rewrites.follow_eq libraries host (.bytes content) given
  have houtcome : outcome = .ofRun
      ((rewriteListing libraries host command rewrite (.bytes content) given).perform {}) := by
    rw [← hfollow]
    simp only [outcome, execute, hread]
  have succeeds {chosen warnings text} (hchooses : Chooses libraries host given chosen warnings)
      (hne : text ≠ []) (hcontent : content = text.utf8Encode) :
      outcome = ⟨0, rewrite chosen.table chosen.ending text, warnings.map .setting⟩ := by
    rw [houtcome, perform_rewriteListing hsink hchooses hne hcontent]
    rfl
  refine ⟨?_, fun _ _ _ => succeeds⟩
  rw [← exists_chooses_iff libraries host given]
  constructor
  · intro hexit
    rcases hend : (rewriteListing libraries host command rewrite (.bytes content) given).perform {}
      with ⟨fault | _, after⟩
    · rw [houtcome, hend] at hexit
      cases fault with
      | failed | panicked => cases hexit
    · exact exists_of_perform_rewriteListing hend
  · rintro ⟨⟨chosen, warnings, hchooses⟩, text, hne, hcontent⟩
    rw [succeeds hchooses hne hcontent]

/-- Without the CE-158, `DTE` is a name. The other run has nothing to read. -/
theorem run_bytes_reformat :
    let host := Host.standard false ⟨false, false⟩
    let config := "\x7b\"keywords\":\x7b\"ce158\":false\x7d\x7d"
    let arguments := ["reformat", "--config", config].map String.toUTF8
    let given : Matches := [⟨"config", .commandLine, .text config.toList⟩]
    let settings : Settings := { ce158 := false }
    let outcome := execute .own host arguments (.bytes "10 DTE 1".toUTF8)
    let outcome' := execute .own host arguments (.bytes "".toUTF8)
    Libraries.own.readArguments.ComplainsApart ∧ host.TakesAll ∧
      Libraries.own.readArguments arguments = .matched (some ("reformat", given)) ∧
      Chooses .own host given settings [] ∧ outcome = ⟨0, "10 DTE1".toList, []⟩ ∧
      outcome'.exit ≠ 0 ∧ outcome'.output = [] := by
  intro host config arguments given settings outcome outcome'
  have hreader : Libraries.own.readArguments.ComplainsApart := Reader.complainsApart_standard
  have hsink : host.TakesAll := fun _ _ => rfl
  have hread : Libraries.own.readArguments arguments = .matched (some ("reformat", given)) :=
    (Reader.standard_map_toUTF8 ["reformat", "--config", config]).trans (by decide +kernel)
  have hchooses : Chooses .own host given settings [] := by
    have hparse : (Settings.parse config.toList).toOption = some (settings, []) := by
      decide +kernel
    exact .of_parseWith (by decide +kernel) hparse
  have hcontent : "10 DTE 1".toUTF8 = "10 DTE 1".toList.utf8Encode :=
    String.utf8Encode_toList.symm
  obtain ⟨-, hrun⟩ := run_bytes .own host arguments "10 DTE 1".toUTF8 hreader hsink
  obtain ⟨hfails, hrun'⟩ := run_bytes .own host arguments "".toUTF8 hreader hsink
  have hlisting : PocketBasic.reformat settings.table settings.ending "10 DTE 1".toList =
      "10 DTE1".toList := by decide +kernel
  have houtcome := (hrun _ _ _ hread .reformat).2 _ _ _ hchooses (by decide) hcontent
  have hexit : outcome'.exit ≠ 0 := by
    intro hexit
    obtain ⟨-, text, hne, hempty⟩ := (hrun' _ _ _ hread .reformat).1.mp hexit
    have hstring : "" = String.ofList text := String.toByteArray_inj.mp hempty
    exact hne (String.ofList_injective hstring.symm)
  exact ⟨hreader, hsink, hread, hchooses, houtcome.trans (congrArg (Outcome.mk 0 · []) hlisting),
    hexit, hfails hexit⟩

end PocketBasic.Cli
