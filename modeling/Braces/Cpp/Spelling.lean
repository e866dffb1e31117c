/-!
# Spelling of names in the target

A name of the source keeps its spelling, unless the target uses it for something else: then it takes
an underscore more. The underscores it has already do not count, which keeps spellings apart.
-/

namespace Braces.Cpp

/-- The words that the target keeps for itself. -/
def keywords : List String :=
  ["alignas", "alignof", "and", "and_eq", "asm", "auto", "bitand", "bitor", "bool", "break", "case",
    "catch", "char", "char8_t", "char16_t", "char32_t", "class", "compl", "concept", "const",
    "consteval", "constexpr", "constinit", "const_cast", "continue", "co_await", "co_return",
    "co_yield", "decltype", "default", "delete", "do", "double", "dynamic_cast", "else", "enum",
    "explicit", "export", "extern", "false", "float", "for", "friend", "goto", "if",
    "inline", "int", "long", "mutable", "namespace", "new", "noexcept", "not", "not_eq", "nullptr",
    "operator", "or", "or_eq", "private", "protected", "public", "register", "reinterpret_cast",
    "requires", "return", "short", "signed", "sizeof", "static", "static_assert", "static_cast",
    "struct", "switch", "template", "this", "thread_local", "throw", "true", "try", "typedef",
    "typeid", "typename", "union", "unsigned", "using", "virtual", "void", "volatile", "wchar_t",
    "while", "xor", "xor_eq"]

/-- Names that mean something else in the emitted program: keywords, names of the prelude, and
library names that the output uses or that would be ambiguous. -/
def reserved : List String :=
  keywords ++
    ["render_list", "py_str", "py_floordiv", "py_mod", "py_fmod", "py_truthy", "py_concat",
      "py_repeat", "py_index", "py_step", "py_lvalue", "py_range",
      "std", "cout", "endl", "string", "vector", "size_t", "to_string", "abs", "ceil",
      "count", "exp", "fabs", "floor", "fmod", "log", "max", "min", "pow", "round", "sort",
      "sqrt", "swap"]

/-- A name without the underscores at its end. -/
def stem (name : String) : String :=
  String.ofList (name.toList.reverse.dropWhile (· = '_')).reverse

/-- The spelling of a source name. -/
def spell (name : String) : String := if stem name ∈ reserved then name ++ "_" else name

end Braces.Cpp
