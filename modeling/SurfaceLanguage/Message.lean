/-!
# Messages

Reports are worded in English or in Chinese. A locale is chosen by a tag such as
`zh-CN` or `en_US.UTF-8`, of which only the leading language counts.

Every report is a template of the chosen locale whose placeholders are filled in
order. A placeholder is an opening brace with a closing brace right behind it.
-/
namespace SurfaceLanguage

inductive Locale where
  | english
  | chinese
deriving DecidableEq, Repr

namespace Locale

instance : Inhabited Locale := ⟨.english⟩

/-- The characters that end the language of a tag. -/
def isTagSeparator (c : Char) : Bool := c == '-' || c == '_' || c == '.'

/-- Chinese when the language of the tag is `zh` in either case, English for
every other tag. -/
def ofTag (tag : String) : Locale :=
  let language := tag.toList.takeWhile (!isTagSeparator ·)
  if language.map Char.toLower = ['z', 'h'] then .chinese else .english

end Locale

inductive MessageKey where
  | unterminatedString
  | unterminatedComment
  | unexpectedCharacter
  | workerLost
deriving DecidableEq, Repr

namespace MessageKey

def all : List MessageKey :=
  [.unterminatedString, .unterminatedComment, .unexpectedCharacter, .workerLost]

/-- The text by which a caller asks for a message. -/
def id : MessageKey → String
  | .unterminatedString => "ERR_LEX_UNTERMINATED_STRING"
  | .unterminatedComment => "ERR_LEX_UNTERMINATED_COMMENT"
  | .unexpectedCharacter => "ERR_LEX_UNEXPECTED_CHAR"
  | .workerLost => "MSG_BATCH_WORKER_PANICKED"

def ofId? (text : String) : Option MessageKey := all.find? (·.id == text)

def template : MessageKey → Locale → String
  | .unterminatedString, .english => "Unterminated string literal"
  | .unterminatedComment, .english => "Unterminated block comment"
  | .unexpectedCharacter, .english => "Unexpected character '\x7b\x7d'"
  | .workerLost, .english => "A lexer worker thread panicked"
  | .unterminatedString, .chinese => "未闭合的字符串字面量"
  | .unterminatedComment, .chinese => "未闭合的块注释"
  | .unexpectedCharacter, .chinese => "意外的字符 '\x7b\x7d'"
  | .workerLost, .chinese => "词法分析工作线程崩溃"

end MessageKey

/-- What is said of a key that no message has. -/
def unknownMessage : Locale → String
  | .english => "Unknown message key"
  | .chinese => "未知的消息键"

/-- The template that an identifier stands for. -/
def message (id : String) (locale : Locale) : String :=
  match MessageKey.ofId? id with
  | some key => key.template locale
  | none => unknownMessage locale

/-- Replaces placeholders by arguments, from left to right. Inserted text is
never read again, so an argument cannot make a placeholder. Arguments left over
are dropped, and placeholders left over stay. -/
def fillLetters : List Char → List String → List Char
  | letters, [] => letters
  | '{' :: '}' :: rest, argument :: arguments => argument.toList ++ fillLetters rest arguments
  | c :: rest, arguments => c :: fillLetters rest arguments
  | [], _ => []

def fill (template : String) (arguments : List String) : String :=
  String.ofList (fillLetters template.toList arguments)

/-- The message of an identifier with its placeholders filled. -/
def formatMessage (id : String) (locale : Locale) (arguments : List String) : String :=
  fill (message id locale) arguments

end SurfaceLanguage
