import Abacus.Bytes

/-!
# The terminal

What is printed, and how it is coloured.
-/

namespace Abacus

/-!
## The terminal

How texts are coloured, and how an error is shown: a line that says what is wrong, the input line,
and a caret below the place at fault. The dots before the caret are counted in columns, so that
the caret stands right below the place also behind characters of several bytes.
-/

namespace Terminal

/-! ### Styles -/

/-- A way to print a text. -/
inductive Style where
  | bold
  | red
  | green
  | yellow
  | cyan
  | gray
  deriving DecidableEq, Repr

/-- The code that turns a style on. -/
def Style.code : Style → Bytes
  | .bold => utf8 "\x1b[1m"
  | .red => utf8 "\x1b[31m"
  | .green => utf8 "\x1b[32m"
  | .yellow => utf8 "\x1b[33m"
  | .cyan => utf8 "\x1b[36m"
  | .gray => utf8 "\x1b[90m"

/-- The code that turns every style off. -/
def reset : Bytes := utf8 "\x1b[0m"

/-- A text in some styles. -/
def styled (styles : List Style) (text : Bytes) : Bytes :=
  styles.flatMap Style.code ++ text ++ reset

/-- A line feed. -/
def newline : Bytes := utf8 "\n"

/-- A bold heading on a line of its own. -/
def heading (text : String) : Bytes := styled [.bold] (utf8 text ++ newline)

/-- Some plain lines. -/
def paragraph (lines : List String) : Bytes := lines.flatMap (utf8 · ++ newline)

/-! ### Errors and notes -/

/-- The line that says what is wrong. -/
def errorLine (message : Bytes) : Bytes :=
  styled [.red, .bold] (utf8 "✗ Ошибка: ") ++ styled [.red] message ++ newline

/-- The columns in front of an offset of a line, or of its end if the offset lies behind it. -/
def columnsBefore (line : Bytes) (position : Nat) : Nat := Bytes.columns (line.take position)

/-- A line, and a caret below an offset of it. -/
def caret (line : Bytes) (position : Nat) : Bytes :=
  utf8 "  " ++ line ++ newline
    ++ utf8 "  " ++ styled [.gray] (List.replicate (columnsBefore line position) '.'.toUInt8)
    ++ styled [.red, .bold] (utf8 "^") ++ newline

/-- A gray line that tells of something on the way. -/
def note (label text : Bytes) : Bytes :=
  styled [.gray] (utf8 "  " ++ label ++ utf8 ": " ++ text) ++ newline

end Terminal

/-!
## Texts of the program

What the program prints whatever is calculated.
-/

namespace Program

open Terminal

/-- How the program of a name is called. -/
def usage (name : Bytes) : Bytes :=
  heading "Использование:"
    ++ utf8 "  " ++ name ++ utf8 " [параметры]                    интерактивный режим" ++ newline
    ++ utf8 "  " ++ name
    ++ utf8 " run <file> [-o out.csv] [параметры]  вычисление файла с отчётом в CSV" ++ newline
    ++ newline
    ++ heading "Параметры:"
    ++ paragraph
      ["  --storage <dir>   каталог профилей (по умолчанию ZAPPAC_HOME или ~/.config/zappac)",
        "  --profile <name>  загрузить профиль при запуске",
        "  --dry-run         вычислять без сохранения присваиваний",
        "  --trace           печатать токены и узлы каждой строки",
        "  -h, --help        эта справка",
        ""]

/-- What an interactive session begins with. -/
def greeting : Bytes :=
  styled [.bold, .cyan] (paragraph
      ["",
        "╔═══════════════════════════════════════════════════════════╗",
        "║    zappac: калькулятор с переменными и системами счисления ║",
        "╚═══════════════════════════════════════════════════════════╝"])
    ++ styled [.gray] (paragraph ["Введите выражение, help для справки или exit для выхода."])
    ++ newline

/-- What a line can hold. -/
def languageHelp : Bytes :=
  heading "Выражения:"
    ++ paragraph
      ["  1 + 2 * (3 - 4)       операторы + - * / // % ** << >>",
        "  0xff  0755  b101      шестнадцатеричные, восьмеричные и двоичные числа",
        "  abs(-5)               модуль"]
    ++ heading "Переменные:"
    ++ paragraph
      ["  $foo = 10             присваивание",
        "  $foo * 2              использование"]
    ++ heading "Система счисления результата:"
    ++ paragraph ["  hex(255)  oct(8)  bin(2)  dec(0xff)"]
    ++ heading "Профили:"
    ++ paragraph ["  save(name)  load(name)  clear()", ""]

/-- What asks for a line. -/
def prompt : Bytes := styled [.bold, .cyan] (utf8 "zappac> ")

/-- What an interactive session ends with. -/
def farewell : Bytes :=
  newline ++ styled [.cyan] (utf8 "Работа завершена. До свидания!") ++ newline ++ newline

end Program

end Abacus
