/-
What a client says that it can do.

A client starts a session with a record of its capabilities.  The server makes no use of them, but
a session starts only if all of them have the shapes that the protocol gives them.  The order of
the fields is the one in which a record is written as a list.
-/
import Abnf.Json.Shape

namespace Abnf.ClientCapabilities

open Shape

/-! ### Parts that several capabilities share -/

/-- Records of flags, each of which may be absent. -/
def flags (names : List String) : Shape := options bool names

/-- Whether a capability can be registered while the server runs. -/
def dynamic : Shape := flags ["dynamicRegistration"]

/-- Whether the server may ask for what it gave to be asked for again. -/
def refresh : Shape := flags ["refreshSupport"]

/-- Which properties can be found out later. -/
def resolve : Shape := record [.required "properties" (list string)]

/-- Which of a set of numbered kinds are known. -/
def kinds : Shape := options (list int32) ["valueSet"]

/-- Which of a set of numbered tags are known.  A flag stands for all or none of them. -/
def tags : Shape := either bool (record [.required "valueSet" (list int32)])

/-- Formats of a text for people. -/
def markup : Shape := list (word ["plaintext", "markdown"])

/-- Where a name can lead to. -/
def goto : Shape := flags ["dynamicRegistration", "linkSupport"]

/-! ### Workspaces -/

def workspaceEdit : Shape :=
  record
    [.optional "documentChanges" bool,
      .optional "resourceOperations" (list (word ["create", "rename", "delete"])),
      .optional "failureHandling"
        (word ["abort", "transactional", "textOnlyTransactional", "undo"]),
      .optional "normalizesLineEndings" bool,
      .optional "changeAnnotationSupport" (flags ["groupsOnLabel"])]

def workspaceSymbol : Shape :=
  record
    [.optional "dynamicRegistration" bool,
      .optional "symbolKind" kinds,
      .defaulted "tagSupport" tags,
      .optional "resolveSupport" resolve]

def fileOperations : Shape :=
  flags
    ["dynamicRegistration", "didCreate", "willCreate", "didRename", "willRename", "didDelete",
      "willDelete"]

def workspace : Shape :=
  record
    [.optional "applyEdit" bool,
      .optional "workspaceEdit" workspaceEdit,
      .optional "didChangeConfiguration" dynamic,
      .optional "didChangeWatchedFiles"
        (flags ["dynamicRegistration", "relativePatternSupport"]),
      .optional "symbol" workspaceSymbol,
      .optional "executeCommand" dynamic,
      .optional "workspaceFolders" bool,
      .optional "configuration" bool,
      .optional "semanticTokens" refresh,
      .optional "codeLens" refresh,
      .optional "fileOperations" fileOperations,
      .optional "inlineValue" refresh,
      .optional "inlayHint" refresh,
      .optional "diagnostic" refresh]

/-! ### Documents -/

def completionItem : Shape :=
  record
    [.optional "snippetSupport" bool,
      .optional "commitCharactersSupport" bool,
      .optional "documentationFormat" markup,
      .optional "deprecatedSupport" bool,
      .optional "preselectSupport" bool,
      .defaulted "tagSupport" tags,
      .optional "insertReplaceSupport" bool,
      .optional "resolveSupport" resolve,
      .optional "insertTextModeSupport" (record [.required "valueSet" (list int32)]),
      .optional "labelDetailsSupport" bool]

def completion : Shape :=
  record
    [.optional "dynamicRegistration" bool,
      .optional "completionItem" completionItem,
      .optional "completionItemKind" kinds,
      .optional "contextSupport" bool,
      .optional "insertTextMode" int32,
      .optional "completionList" (options (list string) ["itemDefaults"])]

def hover : Shape :=
  record [.optional "dynamicRegistration" bool, .optional "contentFormat" markup]

def signatureInformation : Shape :=
  record
    [.optional "documentationFormat" markup,
      .optional "parameterInformation" (flags ["labelOffsetSupport"]),
      .optional "activeParameterSupport" bool]

def signatureHelp : Shape :=
  record
    [.optional "dynamicRegistration" bool,
      .optional "signatureInformation" signatureInformation,
      .optional "contextSupport" bool]

def documentSymbol : Shape :=
  record
    [.optional "dynamicRegistration" bool,
      .optional "symbolKind" kinds,
      .optional "hierarchicalDocumentSymbolSupport" bool,
      .defaulted "tagSupport" tags]

def codeActionLiteral : Shape :=
  record [.required "codeActionKind" (record [.required "valueSet" (list string)])]

def codeAction : Shape :=
  record
    [.optional "dynamicRegistration" bool,
      .optional "codeActionLiteralSupport" codeActionLiteral,
      .optional "isPreferredSupport" bool,
      .optional "disabledSupport" bool,
      .optional "dataSupport" bool,
      .optional "resolveSupport" resolve,
      .optional "honorsChangeAnnotations" bool]

def rename : Shape :=
  record
    [.optional "dynamicRegistration" bool,
      .optional "prepareSupport" bool,
      .optional "prepareSupportDefaultBehavior" int32,
      .optional "honorsChangeAnnotations" bool]

def publishDiagnostics : Shape :=
  record
    [.optional "relatedInformation" bool,
      .defaulted "tagSupport" tags,
      .optional "versionSupport" bool,
      .optional "codeDescriptionSupport" bool,
      .optional "dataSupport" bool]

def foldingRange : Shape :=
  record
    [.optional "dynamicRegistration" bool,
      .optional "rangeLimit" uint32,
      .optional "lineFoldingOnly" bool,
      .optional "foldingRangeKind"
        (options (list (word ["comment", "imports", "region"])) ["valueSet"]),
      .optional "foldingRange" (flags ["collapsedText"])]

/-- Which requests for tokens are made.  Whole documents may be asked for with a flag, or with an
object that tells about changes. -/
def semanticTokensRequests : Shape :=
  record
    [.optional "range" bool,
      .optional "full" (either bool (object [.optional "delta" bool]))]

def semanticTokens : Shape :=
  record
    [.optional "dynamicRegistration" bool,
      .required "requests" semanticTokensRequests,
      .required "tokenTypes" (list string),
      .required "tokenModifiers" (list string),
      .required "formats" (list string),
      .optional "overlappingTokenSupport" bool,
      .optional "multilineTokenSupport" bool,
      .optional "serverCancelSupport" bool,
      .optional "augmentsSyntaxTokens" bool]

def inlayHint : Shape :=
  record [.optional "dynamicRegistration" bool, .optional "resolveSupport" resolve]

def textDocument : Shape :=
  record
    [.optional "synchronization"
        (flags ["dynamicRegistration", "willSave", "willSaveWaitUntil", "didSave"]),
      .optional "completion" completion,
      .optional "hover" hover,
      .optional "signatureHelp" signatureHelp,
      .optional "references" dynamic,
      .optional "documentHighlight" dynamic,
      .optional "documentSymbol" documentSymbol,
      .optional "formatting" dynamic,
      .optional "rangeFormatting" dynamic,
      .optional "onTypeFormatting" dynamic,
      .optional "declaration" goto,
      .optional "definition" goto,
      .optional "typeDefinition" goto,
      .optional "implementation" goto,
      .optional "codeAction" codeAction,
      .optional "codeLens" dynamic,
      .optional "documentLink" (flags ["dynamicRegistration", "tooltipSupport"]),
      .optional "colorProvider" dynamic,
      .optional "rename" rename,
      .optional "publishDiagnostics" publishDiagnostics,
      .optional "foldingRange" foldingRange,
      .optional "selectionRange" dynamic,
      .optional "linkedEditingRange" dynamic,
      .optional "callHierarchy" dynamic,
      .optional "semanticTokens" semanticTokens,
      .optional "moniker" dynamic,
      .optional "typeHierarchy" dynamic,
      .optional "inlineValue" dynamic,
      .optional "inlayHint" inlayHint,
      .optional "diagnostic" (flags ["dynamicRegistration", "relatedDocumentSupport"])]

/-! ### Notebooks, windows and what concerns all of them -/

def notebookDocument : Shape :=
  record
    [.required "synchronization" (flags ["dynamicRegistration", "executionSummaryReport"])]

def showMessage : Shape := options (flags ["additionalPropertiesSupport"]) ["messageActionItem"]

def window : Shape :=
  record
    [.optional "workDoneProgress" bool,
      .optional "showMessage" showMessage,
      .optional "showDocument" (record [.required "support" bool])]

def regularExpressions : Shape :=
  record [.required "engine" string, .optional "version" string]

def markdown : Shape :=
  record
    [.required "parser" string,
      .optional "version" string,
      .optional "allowedTags" (list string)]

def staleRequests : Shape :=
  record [.required "cancel" bool, .required "retryOnContentModified" (list string)]

def general : Shape :=
  record
    [.optional "regularExpressions" regularExpressions,
      .optional "markdown" markdown,
      .optional "staleRequestSupport" staleRequests,
      .optional "positionEncodings" (list string)]

/-- All that a client says that it can do. -/
def all : Shape :=
  record
    [.optional "workspace" workspace,
      .optional "textDocument" textDocument,
      .optional "notebookDocument" notebookDocument,
      .optional "window" window,
      .optional "general" general,
      .optional "experimental" any]

end Abnf.ClientCapabilities
