import DerivativeHeaders.Channel
import DerivativeHeaders.Declaration
import DerivativeHeaders.Variant.Text

/-! # Faults

Everything that can be wrong with a description, a header text, a call or a file, and the
message that says so. -/
namespace DerivativeHeaders

inductive Complaint where
  /-- A declaration list, by what it declares. -/
  | list (what : String) (cause : Declaration.Complaint)
  | variableWithValue (what name : String)
  | variableWithoutType (what name : String)
  | strayCharacter (c : Char)
  | unknownField (text : String)
  | wrongPassing (name type : String)
  | openMarker
  /-- A line inside a pair of markers that is no comment, and the line of the first marker. -/
  | interruptedMarker (opened : Nat)
  | variantText (cause : Variant.TextFault)
  | noPrototype (variant : Variant)
  | noOpening
  | openPrototype (function : String)
  | constantInDefault (channel : String)
  | otherFunction (variant : Variant) (found expected : String)
  | repeatedChannel (channel : String)
  | foreignChannel (channel : String)
  | otherInputs (variant : Variant)
  | notCanonical
  | noDestination (binding : String)

/-- What a description or a header says about a channel. -/
inductive Role where
  | runtime
  | constant (x : Binary64)
deriving DecidableEq

inductive FileFault where
  | notFound
  | notFolder
  | isFolder
  | nameTooLong
  | nulInPath
  | notText
  | other (reason : String)
deriving DecidableEq

inductive LocationFault where
  | notAbsolute (folder : String)
  | notIdentifier (base : String)
deriving DecidableEq

inductive Fault where
  | identifier (name : String)
  | fieldName (name : String)
  | qualifiedPath (path : String)
  | repeatedVariable (name : String)
  | inputCount (expected found : Nat)
  | channelName (name : String)
  | unknownVariable (name channel : String)
  | channelRange (channel : Channel) (outputs inputs : Nat)
  | variantText (cause : Variant.TextFault)
  | unknownVariant (name : String)
  | unregisteredVariant (variant : Variant)
  | repeatedVariant (variant : Variant)
  | noDefaultVariant
  | unsupportedVariant (variant : Variant)
  | line (number : Nat) (complaint : Complaint)
  | conflict (channel : String) (earlier later : Role)
  | channelOutsideVariants (channel : String)
  | constantValue (channel : String)
  | nonFinite (channel : String) (value : Binary64)
  | channelType (channel expected found : String)
  | noDestination (channel : String)
  | unavailableChannel (channel : String) (variant : Variant)
  | location (cause : LocationFault)
  | file (path : String) (cause : FileFault)

def Complaint.message : Complaint → String
  | list what cause => what ++ ": " ++ cause.message
  | variableWithValue what name => s!"{what}: port '{name}' cannot have a value"
  | variableWithoutType what name => s!"{what}: port '{name}' needs a type"
  | strayCharacter c => strayText c
  | unknownField text => s!"unrecognized field '{text}'"
  | wrongPassing name type => s!"input '{name}' of type {type} uses the wrong passing convention"
  | openMarker => "variant marker is never closed"
  | interruptedMarker opened => s!"variant marker opened on line {opened} is never closed"
  | variantText cause => "invalid variant text: " ++ cause.message
  | noPrototype variant => s!"no prototype for variant {variant.display}"
  | noOpening => "expected 'void name(' to open the prototype"
  | openPrototype function => s!"prototype of '{function}' is never closed"
  | constantInDefault channel => s!"default block cannot hold constant '{channel}'"
  | otherFunction variant found expected =>
    s!"block for variant {variant.display} declares '{found}', expected '{expected}'"
  | repeatedChannel channel => s!"channel '{channel}' listed twice"
  | foreignChannel channel => s!"channel '{channel}' does not belong to this variant"
  | otherInputs variant => s!"inputs of variant {variant.display} differ from the default block"
  | notCanonical => "header text is not in canonical form"
  | noDestination binding => s!"--bind expects CHANNEL=DEST, got '{binding}'"

def Role.text : Role → String
  | runtime => "runtime"
  | constant x => NumberStyle.description.text x

def FileFault.message : FileFault → String
  | notFound => "No such file or directory (os error 2)"
  | notFolder => "Not a directory (os error 20)"
  | isFolder => "Is a directory (os error 21)"
  | nameTooLong => "File name too long (os error 36)"
  | nulInPath => "file name contained an unexpected NUL byte"
  | notText => "stream did not contain valid UTF-8"
  | other reason => reason

def LocationFault.message : LocationFault → String
  | notAbsolute folder => s!"directory {folder} is not absolute"
  | notIdentifier base => s!"base name '{base}' is not an identifier"

def Fault.message : Fault → String
  | identifier name => s!"invalid identifier: '{name}'"
  | fieldName name => s!"invalid field name: '{name}'"
  | qualifiedPath path => s!"invalid qualified path: '{path}'"
  | repeatedVariable name => s!"duplicate port name '{name}'"
  | inputCount expected found => s!"input expressions: expected {expected}, found {found}"
  | channelName name => s!"malformed channel name: '{name}'"
  | unknownVariable name channel => s!"unknown port '{name}' in channel name '{channel}'"
  | channelRange channel outputs inputs =>
    s!"channel {channel.display} is out of range for {outputs} outputs and {inputs} inputs"
  | variantText cause => "invalid variant text: " ++ cause.message
  | unknownVariant name => s!"unknown variant name '{name}'"
  | unregisteredVariant variant => s!"unregistered capability variant {variant.display}"
  | repeatedVariant variant => s!"variant '{variant.display}' listed more than once"
  | noDefaultVariant => "the default variant (no derivatives) must be supported and come first"
  | unsupportedVariant variant => s!"variant '{variant.display}' is not supported by this header"
  | line number complaint => s!"line {number}: {complaint.message}"
  | conflict channel earlier later =>
    s!"conflicting values for channel '{channel}': {earlier.text} vs {later.text}"
  | channelOutsideVariants channel =>
    s!"channel '{channel}' is not in the enumeration of any supported variant"
  | constantValue channel => s!"zero-order channel '{channel}' cannot be constant"
  | nonFinite channel value =>
    s!"constant channel '{channel}' has non-finite literal {NumberStyle.message.text value}"
  | channelType channel expected found =>
    s!"channel '{channel}' has type {found}, but output port has type {expected}"
  | noDestination channel => s!"no destination for consumed channel '{channel}'"
  | unavailableChannel channel variant =>
    s!"consumed channel '{channel}' is neither emitted nor constant in variant {variant.display}"
  | location cause => "invalid library location: " ++ cause.message
  | file path cause => path ++ ": " ++ cause.message

end DerivativeHeaders
