import EmbraOS.Ports.TurnLoop

/-!
# The Anthropic wire and the neutral blocks

The loop driver works on the neutral blocks of `Ports/TurnLoop.lean`; the Anthropic provider
speaks its own message blocks.  A response is turned into neutral blocks once, kept in the
history, and turned back into wire blocks for every later request.  A thinking block carries a
signature that the API compares, so it has to come back unchanged, directly before the tool call
it came with.

On the way in, a `thinking` directly before a `tool_use` is folded into the one neutral call; any
other `thinking` stands alone.  Both are kept as the JSON value that serde writes for the block,
and read back by serde on the way out.

* `fromValue_toValue`: serde reads back every block it wrote, results with nested blocks included;
* `irBlocksToWire_wireBlocksToIr`: what there and back makes of any list of wire blocks;
* `wire_blocks_round_trip`: lists of text, thinking and tool calls come back as they were.
-/

namespace EmbraOS.Ports.AnthropicConv

open Verified.Serde
open Ports.TurnLoop

/-! ## Wire types -/

/-- `ImageSource`: only the base64 form exists. -/
inductive ImageSource where
  | base64 (mediaType data : String)

mutual

/-- `MessageBlock`: a content block of a message, tagged by `type`. -/
inductive MessageBlock where
  | text (text : String)
  | thinking (thinking signature : String)
  | toolUse (id name : String) (input : Json)
  | toolResult (toolUseId : String) (content : ToolResultContent) (isError : Bool)
  | image (source : ImageSource)

/-- `ToolResultContent`: a string, or an array of blocks. -/
inductive ToolResultContent where
  | text (text : String)
  | blocks (blocks : List MessageBlock)

end

def MessageBlock.text? : MessageBlock → Option String
  | .text t => some t
  | _ => none

/-- `ToolResultContent::text`: the text of either form, images dropped. -/
def ToolResultContent.allText : ToolResultContent → String
  | .text t => t
  | .blocks items => String.join (items.filterMap MessageBlock.text?)

/-- `AnthropicWireMessage`. -/
inductive AnthropicWireMessage where
  | user (content : List MessageBlock)
  | assistant (content : List MessageBlock)

/-! ## What serde writes and reads -/

def ImageSource.toValue : ImageSource → Json
  | .base64 mediaType data =>
    .obj [("type", .str "base64"), ("media_type", .str mediaType), ("data", .str data)]

mutual

/-- `serde_json::to_value` of a block: the tag first, `is_error` only when it is set. -/
def MessageBlock.toValue : MessageBlock → Json
  | .text text => .obj [("type", .str "text"), ("text", .str text)]
  | .thinking thinking signature =>
    .obj [("type", .str "thinking"), ("thinking", .str thinking),
      ("signature", .str signature)]
  | .toolUse id name input =>
    .obj [("type", .str "tool_use"), ("id", .str id), ("name", .str name), ("input", input)]
  | .toolResult toolUseId content isError =>
    .obj ([("type", .str "tool_result"), ("tool_use_id", .str toolUseId),
      ("content", content.toValue)] ++ if isError then [("is_error", .bool true)] else [])
  | .image source => .obj [("type", .str "image"), ("source", source.toValue)]

/-- The untagged content writes a plain string or a plain array. -/
def ToolResultContent.toValue : ToolResultContent → Json
  | .text text => .str text
  | .blocks blocks => .arr (toValues blocks)

def toValues : List MessageBlock → List Json
  | [] => []
  | block :: rest => block.toValue :: toValues rest

end

/-- A required string field. -/
def stringField (value : Json) (key : String) : Option String :=
  (value.get? key).bind Json.asStr?

/-- A field with a default for when it is not there. -/
def defaultField {α : Type} (value : Json) (key : String) (read : Json → Option α)
    (default : α) : Option α :=
  match value.get? key with
  | none => some default
  | some field => read field

def ImageSource.fromValue (value : Json) : Option ImageSource :=
  match stringField value "type" with
  | some "base64" => do
    let mediaType ← stringField value "media_type"
    let data ← stringField value "data"
    return .base64 mediaType data
  | _ => none

/-- A block from the fields of its object and from its `content` as already read.  Fields the
variant does not have are ignored. -/
def readFields (value : Json) (content : Option ToolResultContent) : Option MessageBlock :=
  match stringField value "type" with
  | some "text" => do
    let text ← stringField value "text"
    return .text text
  | some "thinking" => do
    let thinking ← defaultField value "thinking" Json.asStr? ""
    let signature ← stringField value "signature"
    return .thinking thinking signature
  | some "tool_use" => do
    let id ← stringField value "id"
    let name ← stringField value "name"
    let input ← value.get? "input"
    return .toolUse id name input
  | some "tool_result" => do
    let toolUseId ← stringField value "tool_use_id"
    let content ← content
    let isError ← defaultField value "is_error" Json.asBool? false
    return .toolResult toolUseId content isError
  | some "image" => do
    let source ← (value.get? "source").bind ImageSource.fromValue
    return .image source
  | _ => none

mutual

/-- `serde_json::from_value::<MessageBlock>`; `none` is any error. -/
def MessageBlock.fromValue : Json → Option MessageBlock
  | .obj members => readFields (.obj members) (contentOf members)
  | _ => none

/-- The `content` member, read as a string or else as an array of blocks. -/
def contentOf : List (String × Json) → Option ToolResultContent
  | [] => none
  | (key, value) :: rest =>
    if key = "content" then ToolResultContent.fromValue value else contentOf rest

def ToolResultContent.fromValue : Json → Option ToolResultContent
  | .str text => some (.text text)
  | .arr items => (fromValues items).map .blocks
  | _ => none

def fromValues : List Json → Option (List MessageBlock)
  | [] => some []
  | value :: rest => do
    let block ← MessageBlock.fromValue value
    let blocks ← fromValues rest
    return block :: blocks

end

theorem ImageSource.fromValue_toValue (source : ImageSource) :
    ImageSource.fromValue source.toValue = some source := by
  cases source with
  | base64 mediaType data =>
    simp [ImageSource.fromValue, ImageSource.toValue, stringField, Json.get?, Json.asStr?]

mutual

/-- **serde reads back what it wrote.**  The tag selects the variant again, and each field is
found under its own key; an `is_error` that was left out reads as the default. -/
theorem fromValue_toValue : ∀ block : MessageBlock,
    MessageBlock.fromValue block.toValue = some block
  | .text text => by
    simp [MessageBlock.toValue, MessageBlock.fromValue, readFields, stringField, Json.get?,
      Json.asStr?]
  | .thinking thinking signature => by
    simp [MessageBlock.toValue, MessageBlock.fromValue, readFields, stringField, defaultField,
      Json.get?, Json.asStr?]
  | .toolUse id name input => by
    simp [MessageBlock.toValue, MessageBlock.fromValue, readFields, stringField, Json.get?,
      Json.asStr?]
  | .toolResult toolUseId content isError => by
    have hcontent := content_fromValue_toValue content
    cases isError <;>
      simp [MessageBlock.toValue, MessageBlock.fromValue, readFields, stringField,
        defaultField, contentOf, hcontent, Json.get?, Json.asStr?, Json.asBool?]
  | .image source => by
    simp [MessageBlock.toValue, MessageBlock.fromValue, readFields, stringField, Json.get?,
      Json.asStr?, ImageSource.fromValue_toValue]

theorem content_fromValue_toValue : ∀ content : ToolResultContent,
    ToolResultContent.fromValue content.toValue = some content
  | .text text => by simp [ToolResultContent.toValue, ToolResultContent.fromValue]
  | .blocks blocks => by
    simp [ToolResultContent.toValue, ToolResultContent.fromValue, fromValues_toValues blocks]

theorem fromValues_toValues : ∀ blocks : List MessageBlock,
    fromValues (toValues blocks) = some blocks
  | [] => by simp [toValues, fromValues]
  | block :: rest => by
    simp [toValues, fromValues, fromValue_toValue block, fromValues_toValues rest]

end

/-! ## From neutral blocks to the wire -/

/-- `image_block`. -/
def imageBlock (img : ImageData) : MessageBlock :=
  .image (.base64 img.mediaType img.dataB64)

/-- The `content` of a tool result: the bare string, or text and images when there are images. -/
def resultContent (content : String) (images : List ImageData) : ToolResultContent :=
  if images.isEmpty then
    .text content
  else
    .blocks ((if content.isEmpty then [] else [.text content]) ++ images.map imageBlock)

/-- What the loop of `ir_blocks_to_wire` pushes for one block.  An opaque value that serde does
not read as a block is left out. -/
def blockToWire : Block → List MessageBlock
  | .text text => [.text text]
  | .toolCall id name args providerOpaque =>
    (providerOpaque.bind MessageBlock.fromValue).toList ++ [.toolUse id name args]
  | .image img => [imageBlock img]
  | .toolResult callId content isError images =>
    [.toolResult callId (resultContent content images) isError]
  | .providerOpaque json => (MessageBlock.fromValue json).toList

/-- `ir_blocks_to_wire`. -/
def irBlocksToWire (blocks : List Block) : List MessageBlock := blocks.flatMap blockToWire

/-- `ir_messages_to_wire`. -/
def irMessagesToWire (messages : List ApiMessage) : List AnthropicWireMessage :=
  messages.map fun
    | .user content => .user (irBlocksToWire content)
    | .assistant content => .assistant (irBlocksToWire content)

/-! ## From the wire to neutral blocks -/

/-- `wire_blocks_to_ir`: the second equation is the look-ahead of the peekable iterator. -/
def wireBlocksToIr : List MessageBlock → List Block
  | [] => []
  | .text text :: rest => .text text :: wireBlocksToIr rest
  | .thinking thinking signature :: .toolUse id name input :: rest =>
    .toolCall id name input (some (MessageBlock.thinking thinking signature).toValue)
      :: wireBlocksToIr rest
  | .thinking thinking signature :: rest =>
    .providerOpaque (MessageBlock.thinking thinking signature).toValue :: wireBlocksToIr rest
  | .toolUse id name input :: rest => .toolCall id name input none :: wireBlocksToIr rest
  | .toolResult toolUseId content isError :: rest =>
    .toolResult toolUseId content.allText isError [] :: wireBlocksToIr rest
  | .image _ :: rest => wireBlocksToIr rest

/-! ## There and back -/

/-- What a wire block comes back as: a tool result with its text as a bare string, an image not at
all, and every other block as it is. -/
def cameBack : MessageBlock → Option MessageBlock
  | .toolResult toolUseId content isError =>
    some (.toolResult toolUseId (.text content.allText) isError)
  | .image _ => none
  | block => some block

/-- One neutral block at a time, so the wire of a list is the wire of its head and its tail. -/
theorem irBlocksToWire_cons (block : Block) (blocks : List Block) :
    irBlocksToWire (block :: blocks) = blockToWire block ++ irBlocksToWire blocks :=
  List.flatMap_cons

/-- **There and back.**  The induction is on the conversion's own recursion: a `thinking` folded
into the call behind it takes two blocks off the list and gives two back. -/
theorem irBlocksToWire_wireBlocksToIr (blocks : List MessageBlock) :
    irBlocksToWire (wireBlocksToIr blocks) = blocks.filterMap cameBack := by
  fun_induction wireBlocksToIr blocks with
  | case1 => rfl
  | case2 text rest ih =>
    rw [irBlocksToWire_cons, ih]
    simp [blockToWire, cameBack]
  | case3 thinking signature id name input rest ih =>
    rw [irBlocksToWire_cons, ih]
    simp [blockToWire, cameBack, fromValue_toValue]
  | case4 thinking signature rest hnext ih =>
    rw [irBlocksToWire_cons, ih]
    simp [blockToWire, cameBack, fromValue_toValue]
  | case5 id name input rest ih =>
    rw [irBlocksToWire_cons, ih]
    simp [blockToWire, cameBack]
  | case6 toolUseId content isError rest ih =>
    rw [irBlocksToWire_cons, ih]
    simp [blockToWire, cameBack, resultContent]
  | case7 source rest ih =>
    rw [ih, List.filterMap_cons_none rfl]

/-- The blocks of an assistant's turn. -/
def MessageBlock.isAssistant : MessageBlock → Bool
  | .text _ => true
  | .thinking _ _ => true
  | .toolUse _ _ _ => true
  | .toolResult _ _ _ => false
  | .image _ => false

theorem cameBack_eq {block : MessageBlock} (h : block.isAssistant = true) :
    cameBack block = some block := by
  cases block with
  | text | thinking | toolUse => rfl
  | toolResult | image => cases h

theorem filterMap_cameBack {blocks : List MessageBlock}
    (h : ∀ block ∈ blocks, block.isAssistant = true) : blocks.filterMap cameBack = blocks := by
  induction blocks with
  | nil => rfl
  | cons block rest ih =>
    rw [List.filterMap_cons_some (cameBack_eq (h block (List.mem_cons_self ..)))]
    rw [ih fun b hb => h b (List.mem_cons_of_mem _ hb)]

/-- **An assistant's turn comes back as it was.**  Text, thinking and tool calls in any order and
any number: the same blocks in the same order, with their signatures and inputs. -/
theorem wire_blocks_round_trip (blocks : List MessageBlock)
    (h : ∀ block ∈ blocks, block.isAssistant = true) :
    irBlocksToWire (wireBlocksToIr blocks) = blocks := by
  rw [irBlocksToWire_wireBlocksToIr, filterMap_cameBack h]

/-- Two runs of thinking, one cut by a text and one ending in a call. -/
theorem wire_blocks_round_trip_thinking_runs :
    irBlocksToWire (wireBlocksToIr
      [.thinking "" "sig-1", .thinking "a" "sig-2", .text "Looking.", .thinking "" "sig-3",
        .toolUse "toolu_1" "recall" (.obj [("query", .str "soul")]),
        .toolUse "toolu_2" "time" .null, .thinking "b" "sig-4"]) =
      [.thinking "" "sig-1", .thinking "a" "sig-2", .text "Looking.", .thinking "" "sig-3",
        .toolUse "toolu_1" "recall" (.obj [("query", .str "soul")]),
        .toolUse "toolu_2" "time" .null, .thinking "b" "sig-4"] :=
  wire_blocks_round_trip _ (by simp [MessageBlock.isAssistant])

/-- A response kept in the history is sent again as the API gave it, whatever was said before and
after it. -/
theorem irMessagesToWire_response (before after : List ApiMessage)
    {response : List MessageBlock} (h : ∀ block ∈ response, block.isAssistant = true) :
    irMessagesToWire (before ++ .assistant (wireBlocksToIr response) :: after) =
      irMessagesToWire before ++ .assistant response :: irMessagesToWire after := by
  have hback : irBlocksToWire (wireBlocksToIr response) = response := by
    rw [irBlocksToWire_wireBlocksToIr, filterMap_cameBack h]
  simp [irMessagesToWire, hback]

end EmbraOS.Ports.AnthropicConv
