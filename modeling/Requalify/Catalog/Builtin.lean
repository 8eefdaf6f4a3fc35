import Requalify.Catalog

/-!
The names of the standard library and of Boost. Projects are analyzed without their system headers, and
this catalog stands in for them. It knows names, namespaces and kinds, and no signatures. Names of the C
library are members of the global namespace and imported into `std`.
-/

namespace Requalify.Catalog

namespace Builtin

/-- Nested namespaces: parent, name and whether the namespace is inline. -/
def nestedNames : List (List String × String × Bool) :=
  [([], "std", false),
    (["std"], "__cxx11", true),
    (["std"], "this_thread", false),
    (["std"], "placeholders", false),
    (["std"], "chrono", false),
    (["std"], "filesystem", false),
    (["std"], "literals", true),
    (["std"], "chrono_literals", true),
    (["std"], "string_literals", true),
    ([], "boost", false),
    (["boost"], "iterators", false),
    (["boost"], "operators_impl", false),
    (["boost"], "filesystem", false),
    (["boost"], "algorithm", false),
    (["boost"], "mpl", false),
    (["boost"], "python", false),
    (["boost", "python"], "api", false),
    (["boost", "python"], "converter", false),
    (["boost", "python"], "self_ns", false)]

/-- Members of the global namespace. -/
def libraryMembers : List (List String × DeclarationKind × List String) :=
  [([], .record,
      ["FILE", "tm"]),
    ([], .typeAlias,
      ["clock_t", "int16_t", "int32_t", "int64_t", "int8_t", "intptr_t", "ptrdiff_t", "size_t",
       "time_t", "uint16_t", "uint32_t", "uint64_t", "uint8_t", "uintptr_t"]),
    ([], .function,
      ["abort", "abs", "atan2", "atexit", "atof", "atoi", "atol", "calloc", "ceil", "clock", "cos",
       "exit", "exp", "fabs", "fclose", "fflush", "fgets", "floor", "fmod", "fopen", "fprintf",
       "fputs", "fread", "free", "fwrite", "getchar", "getenv", "isalnum", "isalpha", "isdigit",
       "islower", "isspace", "isupper", "labs", "log", "log10", "malloc", "memcmp", "memcpy",
       "memmove", "memset", "pow", "printf", "putchar", "puts", "qsort", "rand", "realloc",
       "remove", "rename", "round", "sin", "snprintf", "sprintf", "sqrt", "srand", "sscanf",
       "strcat", "strchr", "strcmp", "strcpy", "strdup", "strerror", "strlen", "strncmp", "strncpy",
       "strrchr", "strstr", "strtod", "strtol", "strtoul", "system", "tan", "time", "tolower",
       "toupper", "vsnprintf"])]

/-- Members of `std` and the namespaces in it. -/
def standardMembers : List (List String × DeclarationKind × List String) :=
  [(["std"], .record,
      ["add_const", "add_lvalue_reference", "add_pointer", "allocator", "any", "array", "atomic",
       "back_insert_iterator", "bad_alloc", "bad_cast", "bad_function_call", "basic_fstream",
       "basic_ifstream", "basic_iostream", "basic_istream", "basic_istringstream", "basic_ofstream",
       "basic_ostream", "basic_ostringstream", "basic_regex", "basic_string", "basic_string_view",
       "basic_stringstream", "bidirectional_iterator_tag", "bitset", "char_traits", "cmatch",
       "common_type", "complex", "condition_variable", "condition_variable_any", "conditional",
       "decay", "default_delete", "default_random_engine", "deque", "domain_error", "enable_if",
       "enable_shared_from_this", "equal_to", "error_category", "error_code", "exception",
       "forward_iterator_tag", "forward_list", "function", "future", "greater", "greater_equal",
       "hash", "in_place_t", "initializer_list", "input_iterator_tag", "integral_constant",
       "invalid_argument", "invoke_result", "ios_base", "is_arithmetic", "is_array", "is_base_of",
       "is_class", "is_const", "is_convertible", "is_copy_constructible",
       "is_default_constructible", "is_empty", "is_enum", "is_floating_point", "is_function",
       "is_integral", "is_move_constructible", "is_pod", "is_pointer", "is_reference", "is_same",
       "is_trivially_copyable", "is_void", "istream_iterator", "iterator", "iterator_traits",
       "length_error", "less", "less_equal", "list", "locale", "lock_guard", "logic_error",
       "logical_and", "logical_or", "map", "minus", "move_iterator", "mt19937", "multimap",
       "multiplies", "multiset", "mutex", "normal_distribution", "not_equal_to", "nothrow_t",
       "nullopt_t", "numeric_limits", "once_flag", "optional", "ostream_iterator", "out_of_range",
       "output_iterator_tag", "overflow_error", "packaged_task", "pair", "plus", "priority_queue",
       "promise", "queue", "random_access_iterator_tag", "random_device", "range_error", "ratio",
       "recursive_mutex", "reference_wrapper", "remove_const", "remove_cv", "remove_pointer",
       "remove_reference", "result_of", "reverse_iterator", "runtime_error", "scoped_lock", "set",
       "shared_future", "shared_lock", "shared_mutex", "shared_ptr", "smatch", "stack", "streambuf",
       "system_error", "thread", "timed_mutex", "tuple", "tuple_element", "tuple_size",
       "type_index", "type_info", "underflow_error", "underlying_type", "uniform_int_distribution",
       "uniform_real_distribution", "unique_lock", "unique_ptr", "unordered_map",
       "unordered_multimap", "unordered_multiset", "unordered_set", "valarray", "variant", "vector",
       "weak_ptr"]),
    (["std"], .enumeration,
      ["launch", "memory_order"]),
    (["std"], .enumerator,
      ["memory_order_acq_rel", "memory_order_acquire", "memory_order_consume",
       "memory_order_relaxed", "memory_order_release", "memory_order_seq_cst"]),
    (["std"], .typeAlias,
      ["atomic_bool", "atomic_int", "byte", "enable_if_t", "exception_ptr", "false_type", "fstream",
       "ifstream", "iostream", "istream", "istringstream", "micro", "milli", "nano", "nullptr_t",
       "ofstream", "ostream", "ostringstream", "regex", "streamsize", "string", "string_view",
       "stringstream", "true_type", "u16string", "u32string", "wstring"]),
    (["std"], .function,
      ["accumulate", "addressof", "advance", "all_of", "any_cast", "any_of", "as_const", "async",
       "back_inserter", "binary_search", "bind", "boolalpha", "call_once", "clamp",
       "const_pointer_cast", "copy", "copy_if", "copy_n", "count", "count_if", "cref",
       "current_exception", "dec", "declval", "distance", "dynamic_pointer_cast", "endl", "ends",
       "equal", "equal_range", "exchange", "fill", "find", "find_if", "find_if_not", "fixed",
       "flush", "for_each", "forward", "forward_as_tuple", "front_inserter", "getline", "hex",
       "holds_alternative", "inserter", "invoke", "iota", "isfinite", "isinf", "isnan",
       "lexicographical_compare", "lower_bound", "make_pair", "make_shared", "make_tuple",
       "make_unique", "max", "max_element", "mem_fn", "min", "min_element", "move", "none_of",
       "nth_element", "partial_sort", "ref", "regex_match", "regex_replace", "regex_search",
       "remove", "remove_if", "rethrow_exception", "reverse", "rotate", "scientific",
       "set_difference", "set_intersection", "set_union", "setfill", "setprecision", "setw", "sort",
       "stable_sort", "static_pointer_cast", "stod", "stof", "stoi", "stol", "stoll", "stoul",
       "swap", "terminate", "tie", "to_string", "transform", "unique", "upper_bound", "visit", "ws"]),
    (["std"], .variable,
      ["cerr", "cin", "clog", "cout", "in_place", "nothrow", "nullopt"]),
    (["std", "this_thread"], .function,
      ["get_id", "sleep_for", "yield"]),
    (["std", "placeholders"], .variable,
      ["_1", "_2", "_3", "_4", "_5", "_6", "_7", "_8", "_9"]),
    (["std", "chrono"], .record,
      ["duration", "high_resolution_clock", "steady_clock", "system_clock", "time_point",
       "treat_as_floating_point"]),
    (["std", "chrono"], .typeAlias,
      ["hours", "microseconds", "milliseconds", "minutes", "nanoseconds", "seconds"]),
    (["std", "chrono"], .function,
      ["duration_cast", "time_point_cast"]),
    (["std", "filesystem"], .record,
      ["directory_entry", "directory_iterator", "filesystem_error", "path",
       "recursive_directory_iterator"]),
    (["std", "filesystem"], .function,
      ["absolute", "canonical", "create_directories", "current_path", "exists", "file_size",
       "is_directory", "is_regular_file", "remove", "temp_directory_path"])]

/-- Members of `boost` and the namespaces in it. -/
def boostMembers : List (List String × DeclarationKind × List String) :=
  [(["boost"], .record,
      ["aligned_storage", "any", "array", "atomic", "bad_lexical_cast", "basic_format",
       "call_traits", "char_separator", "circular_buffer", "compressed_pair", "condition_variable",
       "disable_if", "enable_if", "enable_if_c", "enable_shared_from_this", "function", "hash",
       "integral_constant", "intrusive_ptr", "is_arithmetic", "is_base_of", "is_const",
       "is_convertible", "is_enum", "is_integral", "is_pointer", "is_same", "iterator_range",
       "lock_guard", "mutex", "noncopyable", "none_t", "optional", "recursive_mutex",
       "reference_wrapper", "remove_const", "remove_cv", "remove_pointer", "remove_reference",
       "scoped_array", "scoped_ptr", "shared_array", "shared_lock", "shared_mutex", "shared_ptr",
       "static_visitor", "thread", "thread_specific_ptr", "tokenizer", "tuple",
       "type_with_alignment", "unique_lock", "unordered_map", "unordered_set", "variant",
       "weak_ptr"]),
    (["boost"], .typeAlias,
      ["false_type", "format", "true_type"]),
    (["boost"], .function,
      ["addressof", "any_cast", "apply_visitor", "bind", "checked_delete", "cref",
       "dynamic_pointer_cast", "get", "get_pointer", "hash_combine", "lexical_cast",
       "make_iterator_range", "make_shared", "mem_fn", "move", "ref", "static_pointer_cast", "swap"]),
    (["boost"], .variable,
      ["none"]),
    (["boost", "iterators"], .record,
      ["bidirectional_traversal_tag", "counting_iterator", "filter_iterator",
       "forward_traversal_tag", "incrementable_traversal_tag", "indirect_iterator",
       "iterator_adaptor", "iterator_core_access", "iterator_facade", "iterator_traversal",
       "no_traversal_tag", "random_access_traversal_tag", "reverse_iterator",
       "single_pass_traversal_tag", "transform_iterator", "use_default"]),
    (["boost", "iterators"], .function,
      ["make_transform_iterator"]),
    (["boost", "operators_impl"], .record,
      ["addable", "arithmetic", "decrementable", "dividable", "equality_comparable",
       "incrementable", "less_than_comparable", "multipliable", "operators", "subtractable",
       "totally_ordered"]),
    (["boost", "filesystem"], .record,
      ["directory_iterator", "filesystem_error", "path", "recursive_directory_iterator"]),
    (["boost", "filesystem"], .function,
      ["absolute", "create_directories", "current_path", "exists", "is_directory",
       "is_regular_file", "remove"]),
    (["boost", "algorithm"], .function,
      ["ends_with", "is_any_of", "join", "split", "starts_with", "to_lower", "to_upper", "trim"]),
    (["boost", "mpl"], .record,
      ["bool_", "front", "if_", "int_", "vector"]),
    (["boost", "mpl"], .typeAlias,
      ["false_", "true_"]),
    (["boost", "python", "api"], .record,
      ["object", "object_base", "proxy", "slice_nil"]),
    (["boost", "python", "api"], .variable,
      ["_"]),
    (["boost", "python", "converter"], .record,
      ["arg_to_python", "registered", "registration", "registry", "rvalue_from_python_stage1_data",
       "rvalue_from_python_storage", "to_python_converter"]),
    (["boost", "python", "self_ns"], .record,
      ["self_t"]),
    (["boost", "python", "self_ns"], .function,
      ["str"]),
    (["boost", "python", "self_ns"], .variable,
      ["self"]),
    (["boost", "python"], .record,
      ["arg", "bases", "borrowed", "class_", "copy_const_reference", "copy_non_const_reference",
       "default_call_policies", "dict", "docstring_options", "enum_", "error_already_set",
       "extract", "handle", "handle_exception", "init", "list", "long_", "manage_new_object",
       "map_indexing_suite", "no_init_t", "optional", "reference_existing_object", "return_arg",
       "return_by_value", "return_internal_reference", "return_opaque_pointer", "return_self",
       "return_value_policy", "scope", "slice", "str", "tuple", "type_info",
       "vector_indexing_suite", "with_custodian_and_ward", "with_custodian_and_ward_postcall"]),
    (["boost", "python"], .function,
      ["args", "def", "eval", "exec", "expect_non_null", "implicitly_convertible", "import",
       "incref", "is_none", "len", "make_constructor", "make_function", "make_tuple", "ptr",
       "raw_function", "register_ptr_to_python", "throw_error_already_set", "type_id"]),
    (["boost", "python"], .variable,
      ["no_init"])]

/-- Imported names: importing namespace, source as written in it, and names. A leading `::` makes the
source the global namespace. -/
def importedNames : List (List String × WrittenPath × List String) :=
  [(["std"], ⟨true, ⟨[]⟩⟩,
      ["size_t", "ptrdiff_t", "int8_t", "int16_t", "int32_t", "int64_t", "uint8_t", "uint16_t",
       "uint32_t", "uint64_t", "intptr_t", "uintptr_t", "time_t", "FILE", "malloc", "free", "abort",
       "exit", "getenv", "abs", "atoi", "strtol", "strtod", "strlen", "strcmp", "strncmp", "strcpy",
       "strchr", "strstr", "memcpy", "memmove", "memset", "memcmp", "printf", "fprintf", "snprintf",
       "sprintf", "fopen", "fclose", "sqrt", "pow", "floor", "ceil", "fabs", "isspace", "isdigit",
       "toupper", "tolower"]),
    (["boost"], ⟨false, ⟨["iterators"]⟩⟩,
      ["iterator_facade", "iterator_adaptor", "iterator_core_access", "no_traversal_tag",
       "incrementable_traversal_tag", "single_pass_traversal_tag", "forward_traversal_tag",
       "bidirectional_traversal_tag", "random_access_traversal_tag", "transform_iterator",
       "make_transform_iterator", "filter_iterator", "counting_iterator", "indirect_iterator",
       "reverse_iterator", "iterator_traversal", "use_default"]),
    (["boost"], ⟨false, ⟨["algorithm"]⟩⟩,
      ["split", "trim", "starts_with", "ends_with", "to_lower", "to_upper", "join", "is_any_of"]),
    (["boost", "python"], ⟨false, ⟨["api"]⟩⟩,
      ["object", "slice_nil"]),
    (["boost", "python"], ⟨false, ⟨["self_ns"]⟩⟩,
      ["self"])]

/-- Directives: owner and target as written. -/
def nominations : List (List String × WrittenPath) :=
  [(["boost"], ⟨false, ⟨["operators_impl"]⟩⟩)]

end Builtin

open Builtin in
/-- The catalog of the built-in names. -/
def builtin : Catalog where
  namespaces := nestedNames.map fun (parent, name, isInline) => nestedOf ⟨⟨parent⟩, name, isInline⟩
  members := (libraryMembers ++ standardMembers ++ boostMembers).flatMap fun (path, kind, names) =>
    names.map fun name => ⟨name, ⟨path⟩, kind⟩
  imports := importedNames.flatMap fun (owner, source, names) =>
    names.map fun name => ⟨⟨owner⟩, name, ⟨source.absolute, source.path.child name⟩⟩
  directives := nominations.map fun (owner, target) => ⟨⟨owner⟩, target⟩
  aliases := []

end Requalify.Catalog
