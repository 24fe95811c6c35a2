import PocketBasic.Cli.Arguments

/-! What a reader of command lines may put on standard output: what the user asked for, but no
complaints (`Reader.ComplainsApart`). The reader of this library keeps to that
(`Reader.complainsApart_standard`), and it reads arguments that are text by their characters
(`Reader.standard_map_toUTF8`). -/

namespace PocketBasic.Cli

/-- If the library ends the run without success, it has nothing for standard output. -/
def Reading.Apart : Reading → Prop
  | .ended status output => status ≠ 0 → output = []
  | .matched _ => True

/-- The reader does not complain on standard output. -/
def Reader.ComplainsApart (read : Reader) : Prop :=
  ∀ arguments, (read arguments).Apart

namespace Reading

theorem apart_misused : misused.Apart := fun _ => rfl

theorem apart_version : version.Apart := fun h => absurd rfl h

theorem apart_help (detailed : Bool) (topic : Option Command) : (help detailed topic).Apart :=
  fun h => absurd rfl h

theorem apart_ite {p : Prop} [Decidable p] {reading reading' : Reading} (h : reading.Apart)
    (h' : reading'.Apart) : (if p then reading else reading').Apart :=
  iteInduction (fun _ => h) (fun _ => h')

theorem apart_ofCommand (command : Command) (arguments : List Argument) :
    (ofCommand command arguments).Apart := by
  rw [ofCommand]
  split
  next => exact apart_misused
  next => exact apart_help _ _
  next => exact apart_ite apart_misused trivial

theorem apart_helpOn (arguments : List Argument) : (helpOn arguments).Apart := by
  unfold helpOn
  split
  next => exact apart_help _ _
  next =>
    refine apart_ite (apart_help _ _) ?_
    split
    next => exact apart_help _ _
    next => exact apart_misused
  next => exact apart_misused

theorem apart_ofArguments (arguments : List Argument) : (ofArguments arguments).Apart := by
  unfold ofArguments
  split
  next => trivial
  next => exact apart_ite trivial apart_misused
  next =>
    exact apart_ite apart_misused <| apart_ite apart_version <|
      apart_ite (apart_help _ _) apart_misused
  next => exact apart_ite apart_version <| apart_ite (apart_help _ _) apart_misused
  next =>
    refine apart_ite (apart_helpOn _) ?_
    split
    next => exact apart_ofCommand _ _
    next => exact apart_misused
  next => exact apart_misused

end Reading

theorem Reader.complainsApart_standard : Reader.standard.ComplainsApart :=
  fun _ => Reading.apart_ofArguments _

theorem fromUTF8?_eq_some_iff {content : ByteArray} {string : String} :
    String.fromUTF8? content = some string ↔ content = string.toList.utf8Encode := by
  rw [String.utf8Encode_toList, String.fromUTF8?]
  split
  next hvalid =>
    rw [Option.some.injEq, ← String.toByteArray_inj]
    exact Iff.rfl
  next hvalid =>
    refine iff_of_false nofun ?_
    rintro rfl
    exact hvalid string.isValidUTF8

theorem Reader.standard_map_toUTF8 (arguments : List String) :
    Reader.standard (arguments.map String.toUTF8) =
      .ofArguments (arguments.map fun argument => .ofText argument.toList) := by
  have hargument (argument : String) :
      Argument.ofBytes argument.toUTF8 = .ofText argument.toList := by
    have htext : String.fromUTF8? argument.toUTF8 = some argument := by
      rw [fromUTF8?_eq_some_iff, String.utf8Encode_toList]
      rfl
    rw [Argument.ofBytes, htext]
  rw [Reader.standard, List.map_map]
  exact congrArg _ (List.map_congr_left fun argument _ => hargument argument)

end PocketBasic.Cli
